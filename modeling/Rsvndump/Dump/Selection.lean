import Rsvndump.Dump.Numbering

/-! Which revisions an incremental dump prints, and under which numbers. -/

set_option autoImplicit false

namespace Rsvndump

open Library

variable {sys : Platform}

/-! ## Numbered lists -/

/-- The number that is free after a list of revisions has been printed. -/
def nextNumber (keep : Bool) : Int → List Int → Int
  | next, [] => next
  | next, revision :: rest => nextNumber keep (printedNumber keep next revision + 1) rest

theorem numberHeaders_append (keep : Bool) (next : Int) (revs more : List Int) :
    numberHeaders keep next (revs ++ more) =
      numberHeaders keep next revs ++ numberHeaders keep (nextNumber keep next revs) more := by
  induction revs generalizing next with
  | nil => rfl
  | cons revision rest ih => simp only [List.cons_append, numberHeaders, nextNumber, ih, List.append_assoc]

theorem nextNumber_plain (next : Int) (revs : List Int) : nextNumber false next revs = next + revs.length := by
  induction revs generalizing next with
  | nil => simp [nextNumber]
  | cons revision rest ih =>
    rw [nextNumber, ih, List.length_cons]
    simp only [printedNumber, Bool.false_eq_true, if_false]
    push_cast
    omega

theorem nextNumber_keep {next final : Int} {revs : List Int} (sorted : (revs ++ [final]).Pairwise (· < ·))
    (low : ∀ r ∈ revs ++ [final], next ≤ r) : nextNumber true next (revs ++ [final]) = final + 1 := by
  induction revs generalizing next with
  | nil =>
    have := low final (by simp)
    simp only [List.nil_append, nextNumber, printedNumber, if_true]
    omega
  | cons revision rest ih =>
    obtain ⟨later, sorted⟩ := List.pairwise_cons.mp sorted
    have here : next ≤ revision := low revision (by simp)
    rw [List.cons_append, nextNumber]
    apply ih sorted
    intro r member
    have := later r member
    simp only [printedNumber, if_true]
    omega

theorem numberHeaders_revisions (keep : Bool) (next : Int) (revs : List Int) :
    (numberHeaders keep next revs).filterMap Prod.fst = revs := by
  have no_pads : ∀ next revision, (padding keep next revision).filterMap Prod.fst = [] := by
    intro next revision
    unfold padding
    split <;> simp
  induction revs generalizing next with
  | nil => rfl
  | cons revision rest ih => simp [numberHeaders, roundHeaders, no_pads, ih]

theorem not_pad_mem_plain {next n : Int} {revs : List Int} : (none, n) ∉ numberHeaders false next revs := by
  induction revs generalizing next with
  | nil => simp [numberHeaders]
  | cons revision rest ih => simp [numberHeaders, roundHeaders, padding, ih]

theorem mem_numberHeaders_plain {next r n : Int} {revs : List Int} :
    (some r, n) ∈ numberHeaders false next revs ↔ ∃ i : Nat, n = next + i ∧ revs[i]? = some r := by
  induction revs generalizing next with
  | nil => simp [numberHeaders]
  | cons revision rest ih =>
    simp only [numberHeaders, roundHeaders, padding, printedNumber, Bool.false_eq_true, if_false,
      List.nil_append, List.singleton_append, List.mem_cons, Prod.mk.injEq, Option.some.injEq, ih]
    constructor
    · rintro (⟨rfl, rfl⟩ | ⟨i, rfl, found⟩)
      · exact ⟨0, by simp, rfl⟩
      · exact ⟨i + 1, by push_cast; omega, found⟩
    · rintro ⟨i, rfl, found⟩
      cases i with
      | zero => exact .inl ⟨by simpa using found.symm, by simp⟩
      | succ i => exact .inr ⟨i, by push_cast; omega, by simpa using found⟩

/-- With --keep-revnums every revision keeps its number and the gaps are filled. -/
theorem mem_numberHeaders_keep {next n : Int} {original : Option Int} {revs : List Int}
    (sorted : revs.Pairwise (· < ·)) (low : ∀ r ∈ revs, next ≤ r)
    (member : (original, n) ∈ numberHeaders true next revs) :
    (∀ r, original = some r → n = r ∧ r ∈ revs) ∧
      (original = none → next ≤ n ∧ n ∉ revs ∧ ∃ r ∈ revs, n < r) := by
  induction revs generalizing next with
  | nil => simp [numberHeaders] at member
  | cons revision rest ih =>
    obtain ⟨later, sorted⟩ := List.pairwise_cons.mp sorted
    have here : next ≤ revision := low revision (by simp)
    simp only [numberHeaders, roundHeaders, printedNumber, if_true, List.mem_append, List.mem_singleton,
      Prod.mk.injEq] at member
    rcases member with (pad | ⟨rfl, rfl⟩) | rest_member
    · simp only [padding, if_true, List.mem_map, List.mem_range, Prod.mk.injEq, Int.ofNat_eq_natCast] at pad
      obtain ⟨i, small, rfl, rfl⟩ := pad
      refine ⟨by simp, fun _ => ⟨by omega, ?_, revision, by simp, by omega⟩⟩
      intro inside
      rcases List.mem_cons.mp inside with same | inside
      · omega
      · have := later _ inside
        omega
    · refine ⟨fun r same => ?_, by simp⟩
      cases same
      exact ⟨by omega, by simp⟩
    · have low' : ∀ r ∈ rest, max next revision + 1 ≤ r := by
        intro r inside
        have := later r inside
        omega
      obtain ⟨printed, pads⟩ := ih sorted low' rest_member
      refine ⟨fun r same => ?_, fun same => ?_⟩
      · obtain ⟨number, inside⟩ := printed r same
        exact ⟨number, List.mem_cons_of_mem _ inside⟩
      · obtain ⟨above, outside, r, inside, below⟩ := pads same
        refine ⟨by omega, ?_, r, List.mem_cons_of_mem _ inside, below⟩
        intro member
        rcases List.mem_cons.mp member with same | member
        · omega
        · exact outside member

/-- A padding header lies before a revision that is printed under its own number. -/
theorem mem_numberHeaders_pad {next n : Int} {revs : List Int} (sorted : revs.Pairwise (· < ·))
    (low : ∀ r ∈ revs, next ≤ r) (member : (none, n) ∈ numberHeaders true next revs) :
    next ≤ n ∧ n ∉ revs ∧ ∃ r, (some r, r) ∈ numberHeaders true next revs ∧ n < r := by
  obtain ⟨above, outside, r, inside, below⟩ := (mem_numberHeaders_keep sorted low member).2 rfl
  refine ⟨above, outside, r, ?_, below⟩
  have printed : r ∈ (numberHeaders true next revs).filterMap Prod.fst := by
    rw [numberHeaders_revisions]
    exact inside
  obtain ⟨⟨original, number⟩, listed, rfl : original = some r⟩ := List.mem_filterMap.mp printed
  rwa [((mem_numberHeaders_keep sorted low listed).1 r rfl).1] at listed

/-! ## Set-up -/

/-- The log list of an incremental dump. -/
def logList (server : Server) (session : Session) (stop : Int) : List LogRevision :=
  initialLogs session ++ svnRaGetLog server.logs 0 stop

/-- How many entries of the list the preparation of the tree history passes. -/
def preparedCount (logs : List LogRevision) (start : Int) : Nat :=
  (logs.takeWhile fun log => log.revision < start).length

/-- The place of the revision that is fetched in the dry run. -/
def baseIndex (session : Session) (logs : List LogRevision) (start : Int) : Int :=
  if (preparedCount logs start : Int) > 1 ∨ session.prefixPath.length = 0 then preparedCount logs start - 1
  else preparedCount logs start

theorem prepareHistory_count {server : Server} {session : Session} {opts : DumpOptions}
    {logs rest : List LogRevision} {i j : Int} {t t' : TracedRepo sys}
    (ran : prepareHistory server session opts logs rest i t = .ok (j, t')) :
    j = i + preparedCount rest opts.start := by
  induction rest generalizing i t with
  | nil =>
    cases ran
    simp [preparedCount]
  | cons log rest ih =>
    rw [prepareHistory] at ran
    by_cases before : log.revision < opts.start
    · rw [if_pos before] at ran
      obtain ⟨t'', -, ran⟩ := bind_eq_ok.mp ran
      rw [ih ran, preparedCount, preparedCount, List.takeWhile_cons_of_pos (by simpa using before),
        List.length_cons]
      push_cast
      omega
    · rw [if_neg before] at ran
      cases ran
      simp [preparedCount, before]

@[simp] theorem headers_fileHeader (server : Server) (session : Session) (opts : DumpOptions) (mid : Bool) :
    headers (fileHeader server session opts mid) = [] := by
  unfold fileHeader
  split
  · split <;> rfl
  · rfl

theorem setupIncremental_ok {server : Server} {session : Session} {opts : DumpOptions} {st : DumpState sys}
    (ran : setupIncremental server session opts = .ok st) :
    ∃ base last repo,
      prepareHistory server session opts (logList server session opts.stop)
        (logList server session opts.stop) 0 .create =
          .ok ((preparedCount (logList server session opts.stop) opts.start : Int), repo) ∧
      logAt (logList server session opts.stop)
        (baseIndex session (logList server session opts.stop) opts.start) = .ok base ∧
      logAt (logList server session opts.stop) ((logList server session opts.stop).length - 1) = .ok last ∧
      st.delta = { (emptyDelta : DeltaState sys) with repo := repo } ∧
      st.opts = { opts with initialDryRun := true, start := base.revision, stop := last.revision } ∧
      st.logs = logList server session opts.stop ∧ st.logsFetched = true ∧ st.globalRev = base.revision ∧
      st.localRev = (if opts.keepRevnums then base.revision
        else baseIndex session (logList server session opts.stop) opts.start) ∧
      st.listIdx = baseIndex session (logList server session opts.stop) opts.start - 1 ∧
      headers st.out = [] := by
  obtain ⟨⟨count, repo⟩, prepared, ran⟩ := bind_eq_ok.mp ran
  have counted := prepareHistory_count prepared
  rw [Int.zero_add] at counted
  subst counted
  obtain ⟨base, found, ran⟩ := bind_eq_ok.mp ran
  obtain ⟨last, found', ran⟩ := bind_eq_ok.mp ran
  cases ran
  rw [TracedRepo.lift_eq_ok] at found found'
  exact ⟨base, last, repo, prepared, found, found', rfl, rfl, rfl, rfl, rfl, rfl, rfl, by simp⟩

theorem logAt_eq_ok {logs : List LogRevision} {i : Int} {log : LogRevision} (found : logAt logs i = .ok log) :
    0 ≤ i ∧ logs[i.toNat]? = some log := by
  unfold logAt at found
  split at found
  · cases found
  · next valid => exact ⟨by omega, orError_eq_ok.mp found⟩

/-- The entries an incremental dump has to go through, the dry run included. -/
theorem setupIncremental_pending {server : Server} {session : Session} {opts : DumpOptions}
    {st : DumpState sys}
    (sorted : (logList server session opts.stop).Pairwise fun a b => a.revision < b.revision)
    (ran : setupIncremental server session opts = .ok st) :
    Pending server st ((logList server session opts.stop).drop
      (baseIndex session (logList server session opts.stop) opts.start).toNat) := by
  obtain ⟨base, last, repo, -, found, found', -, opts', logs, fetched, -, -, listIdx, -⟩ := setupIncremental_ok ran
  obtain ⟨valid, inside⟩ := logAt_eq_ok found
  obtain ⟨-, final⟩ := logAt_eq_ok found'
  have bound : (baseIndex session (logList server session opts.stop) opts.start).toNat <
      (logList server session opts.stop).length := (List.getElem?_eq_some_iff.mp inside).1
  have whole : ¬ st.logsFetched = false := by simp [fetched]
  refine ⟨sorted.sublist (List.drop_sublist _ _), ?_, ?_, fun mode => absurd mode whole, fun mode => absurd mode whole⟩
  · intro log member
    rw [List.getLast?_drop, if_neg (by omega), List.getLast?_eq_getElem?, Option.mem_def] at member
    have position : ((logList server session opts.stop).length - 1 : Int).toNat =
        (logList server session opts.stop).length - 1 := by omega
    rw [position, member] at final
    rw [Option.some.inj final, opts']
  · intro _
    rw [listIdx, logs]
    exact ⟨by omega, by congr 2; omega⟩

/-! ## Full dumps -/

/-- `created_rev` is the last change of the session root up to a revision; -1 stands for HEAD. -/
structure LastChanged (server : Server) : Prop where
  logged : ∀ rev r, server.createdRev rev = some r → ∃ log ∈ server.logs, log.revision = r
  bound : ∀ rev r, server.createdRev rev = some r → r ≤ rev ∨ rev = -1
  last : ∀ rev r, server.createdRev rev = some r → ∀ log ∈ server.logs,
    log.revision ≤ rev ∨ rev = -1 → log.revision ≤ r

/-- What is known of a log list: the numbers increase, and subdirectories have none at 0. -/
def Increasing (session : Session) (server : Server) : Prop :=
  (initialLogs session ++ server.logs).Pairwise (fun a b => a.revision < b.revision) ∧
    ∀ log ∈ server.logs, 0 ≤ log.revision

theorem Increasing.logs {session : Session} {server : Server} (increasing : Increasing session server) :
    server.logs.Pairwise fun a b => a.revision < b.revision :=
  (List.pairwise_append.mp increasing.1).2.1

theorem mem_initialLogs {session : Session} {log : LogRevision} :
    log ∈ initialLogs session ↔ log = .dummy ∧ session.prefixPath.length > 0 := by
  unfold initialLogs
  split <;> simp_all

theorem initialLogs_length (session : Session) :
    (initialLogs session).length = if session.prefixPath.length > 0 then 1 else 0 := by
  unfold initialLogs
  split <;> rfl

theorem initialLogs_length_le (session : Session) : (initialLogs session).length ≤ 1 := by
  rw [initialLogs_length]
  split <;> omega

theorem initialLogs_revisions (session : Session) :
    (initialLogs session).map LogRevision.revision = if session.prefixPath = [] then [] else [0] := by
  unfold initialLogs
  by_cases root : session.prefixPath = []
  · simp [root]
  · rw [if_pos (List.length_pos_iff.mpr root), if_neg root]
    rfl

theorem mem_initialLogs_revisions {session : Session} {r : Int}
    (member : r ∈ (initialLogs session).map LogRevision.revision) : r = 0 := by
  obtain ⟨log, inside, rfl⟩ := List.mem_map.mp member
  rw [(mem_initialLogs.mp inside).1]
  rfl

theorem Increasing.positive {session : Session} {server : Server} (increasing : Increasing session server)
    (sub : session.prefixPath.length > 0) {log : LogRevision} (member : log ∈ server.logs) : 0 < log.revision :=
  (List.pairwise_append.mp increasing.1).2.2 _ (mem_initialLogs.mpr ⟨rfl, sub⟩) log member

/-- The first number of a full dump is not above any logged revision. -/
theorem Increasing.length_le {session : Session} {server : Server} (increasing : Increasing session server)
    {log : LogRevision} (member : log ∈ server.logs) : ((initialLogs session).length : Int) ≤ log.revision := by
  rw [initialLogs_length]
  split
  · next sub => exact increasing.positive sub member
  · exact increasing.2 log member

theorem svnRaGetLog_of_nonneg (logs : List LogRevision) {start : Int} (stop : Int) (valid : 0 ≤ start) :
    svnRaGetLog logs start stop =
      if start ≤ stop then logs.filter fun log => start ≤ log.revision ∧ log.revision ≤ stop
      else (logs.filter fun log => stop ≤ log.revision ∧ log.revision ≤ start).reverse := by
  rw [svnRaGetLog, if_neg (by omega)]

theorem svnRaGetLog_zero {server : Server} {session : Session} (increasing : Increasing session server)
    {stop : Int} (valid : 0 ≤ stop) :
    svnRaGetLog server.logs 0 stop = server.logs.filter fun log => log.revision ≤ stop := by
  rw [svnRaGetLog_of_nonneg _ _ (Int.le_refl 0), if_pos valid]
  apply List.filter_congr
  intro log member
  simp [increasing.2 log member]

theorem Increasing.logList {session : Session} {server : Server} (increasing : Increasing session server)
    {stop : Int} (valid : 0 ≤ stop) :
    (logList server session stop).Pairwise fun a b => a.revision < b.revision := by
  rw [Rsvndump.logList, svnRaGetLog_zero increasing valid]
  obtain ⟨sorted, -⟩ := increasing
  exact sorted.sublist (List.Sublist.append_left List.filter_sublist _)

/-- The revisions a full dump up to `stop` goes through. -/
def loggedUpTo (server : Server) (stop : Int) : List Int :=
  (server.logs.map LogRevision.revision).filter (· ≤ stop)

theorem map_filter_revision (logs : List LogRevision) (p : Int → Bool) :
    (logs.filter fun log => p log.revision).map LogRevision.revision =
      (logs.map LogRevision.revision).filter p := by
  rw [List.filter_map]
  rfl

def fullOptions (opts : DumpOptions) (stop : Int) : DumpOptions :=
  { opts with incremental := false, start := 0, stop := stop, initialDryRun := false }

theorem head_le {l : List LogRevision} (sorted : l.Pairwise fun a b => a.revision < b.revision)
    {first log : LogRevision} (head : l.head? = some first) (member : log ∈ l) :
    first.revision ≤ log.revision := by
  cases l with
  | nil => cases member
  | cons x rest =>
    cases head
    rcases List.mem_cons.mp member with rfl | later
    · exact Int.le_refl _
    · exact Int.le_of_lt ((List.pairwise_cons.mp sorted).1 log later)

theorem le_getLast {l : List LogRevision} (sorted : l.Pairwise fun a b => a.revision < b.revision)
    {final log : LogRevision} (last : l.getLast? = some final) (member : log ∈ l) :
    log.revision ≤ final.revision := by
  cases l using List.reverseRecOn with
  | nil => cases member
  | append_singleton init x =>
    rw [List.getLast?_concat] at last
    cases last
    rcases List.mem_append.mp member with early | same
    · exact Int.le_of_lt ((List.pairwise_append.mp sorted).2.2 log early final (by simp))
    · rw [List.mem_singleton.mp same]

/-- The range of a subdirectory starts at its first revision and ends where it was meant to. -/
theorem logGetRange_ok {server : Server} {session : Session} (increasing : Increasing session server)
    {stop first last : Int} (logged : ∃ log ∈ server.logs, log.revision = stop)
    (ran : logGetRange server.logs 0 stop = .ok (first, last)) :
    last = stop ∧ first ≤ stop ∧ (∃ log ∈ server.logs, log.revision = first) ∧
      ∀ log ∈ server.logs, first ≤ log.revision := by
  obtain ⟨log, member, rfl⟩ := logged
  have valid := increasing.2 log member
  obtain ⟨head, found, ran⟩ := bind_eq_ok.mp ran
  obtain ⟨tail, found', ran⟩ := bind_eq_ok.mp ran
  cases ran
  rw [logFetchSingle, orError_eq_ok, svnRaGetLog_zero increasing valid] at found
  have head_member := List.mem_filter.mp (List.mem_of_head? found)
  simp only [decide_eq_true_eq] at head_member
  have minimal : ∀ log' ∈ server.logs, head.revision ≤ log'.revision := by
    intro log' inside
    by_cases small : log'.revision ≤ log.revision
    · exact head_le (increasing.logs.sublist List.filter_sublist) found
        (List.mem_filter.mpr ⟨inside, by simpa using small⟩)
    · omega
  refine ⟨?_, head_member.2, ⟨head, head_member.1, rfl⟩, minimal⟩
  rw [logFetchSingle, orError_eq_ok, svnRaGetLog_of_nonneg _ _ valid] at found'
  split at found'
  · next reached =>
    have bounds := (List.mem_filter.mp (List.mem_of_head? found')).2
    simp only [decide_eq_true_eq] at bounds
    omega
  · next larger =>
    rw [List.head?_reverse] at found'
    have bounds := (List.mem_filter.mp (List.mem_of_getLast? found')).2
    simp only [decide_eq_true_eq] at bounds
    have maximal := le_getLast (increasing.logs.sublist List.filter_sublist) found'
      (List.mem_filter.mpr ⟨member, by simp; omega⟩)
    omega

theorem adjustRange_ok {server : Server} {session : Session} (increasing : Increasing session server)
    (changed : LastChanged server) {opts opts' : DumpOptions}
    (ran : adjustRange server session opts = .ok opts') :
    server.createdRev opts.stop = some opts'.stop ∧
      opts' = { opts with start := opts'.start, stop := opts'.stop } ∧
      (opts.start = 0 ∧ session.prefixPath.length > 0 → 0 < opts'.start ∧ opts'.start ≤ opts'.stop ∧
        (∃ log ∈ server.logs, log.revision = opts'.start) ∧ ∀ log ∈ server.logs, opts'.start ≤ log.revision) ∧
      (¬ (opts.start = 0 ∧ session.prefixPath.length > 0) → opts'.start = opts.start) := by
  obtain ⟨stop, created, ran⟩ := bind_eq_ok.mp ran
  rw [dumpDetermineEnd, orError_eq_ok] at created
  split at ran
  · next subdirectory =>
    obtain ⟨⟨first, last⟩, range, ran⟩ := bind_eq_ok.mp ran
    cases ran
    rw [subdirectory.1] at range
    obtain ⟨rfl, le, ⟨log, member, rfl⟩, minimal⟩ :=
      logGetRange_ok increasing (changed.logged _ _ created) range
    have positive := increasing.positive subdirectory.2 member
    exact ⟨created, rfl, fun _ => ⟨positive, le, ⟨log, member, rfl⟩, minimal⟩, fun other => absurd subdirectory other⟩
  · next other =>
    split at ran
    · cases ran
    · cases ran
      exact ⟨created, rfl, fun subdirectory => absurd subdirectory other, fun _ => rfl⟩

theorem mem_of_svnRaGetLog {logs : List LogRevision} {start stop : Int} {log : LogRevision}
    (fetched : log ∈ svnRaGetLog logs start stop) : log ∈ logs := by
  unfold svnRaGetLog at fetched
  split at fetched
  · exact (List.mem_filter.mp (List.mem_reverse.mp fetched)).1
  split at fetched
  · exact (List.mem_filter.mp fetched).1
  · exact (List.mem_filter.mp (List.mem_reverse.mp fetched)).1

theorem logFetchSingle_mem {logs : List LogRevision} {start stop : Int} {log : LogRevision}
    (found : logFetchSingle logs start stop = .ok log) : log ∈ logs := by
  rw [logFetchSingle, orError_eq_ok] at found
  exact mem_of_svnRaGetLog (List.mem_of_head? found)

/-- The start of a range is kept or set to a logged revision. -/
theorem adjustRange_start {server : Server} {session : Session} {opts range : DumpOptions}
    (adjusted : adjustRange server session opts = .ok range) :
    range = { opts with start := range.start, stop := range.stop } ∧
      ((range.start = opts.start ∧ ¬ (opts.start = 0 ∧ session.prefixPath.length > 0)) ∨
        ∃ log ∈ server.logs, log.revision = range.start) := by
  obtain ⟨stop, -, adjusted⟩ := bind_eq_ok.mp adjusted
  split at adjusted
  · obtain ⟨⟨first, last⟩, ran, adjusted⟩ := bind_eq_ok.mp adjusted
    cases adjusted
    obtain ⟨head, found, ran⟩ := bind_eq_ok.mp ran
    obtain ⟨tail, -, ran⟩ := bind_eq_ok.mp ran
    cases ran
    exact ⟨rfl, .inr ⟨head, logFetchSingle_mem found, rfl⟩⟩
  · next other =>
    split at adjusted
    · cases adjusted
    · cases adjusted
      exact ⟨rfl, .inl ⟨rfl, other⟩⟩

/-- A subdirectory is not dumped from revision 0. -/
theorem adjustRange_positive {server : Server} {session : Session} (increasing : Increasing session server)
    {opts range : DumpOptions} (adjusted : adjustRange server session opts = .ok range)
    (sub : session.prefixPath.length > 0) : range.start ≠ 0 := by
  obtain ⟨-, ⟨same, other⟩ | ⟨log, member, same⟩⟩ := adjustRange_start adjusted
  · rw [same]
    exact fun zero => other ⟨zero, sub⟩
  · rw [← same]
    exact Int.ne_of_gt (increasing.positive sub member)

theorem adjustRange_nonneg {server : Server} {session : Session} (increasing : Increasing session server)
    {opts range : DumpOptions} (adjusted : adjustRange server session opts = .ok range) (valid : 0 ≤ opts.start) :
    0 ≤ range.start := by
  obtain ⟨-, ⟨same, -⟩ | ⟨log, member, same⟩⟩ := adjustRange_start adjusted
  · rwa [same]
  · rw [← same]
    exact increasing.2 log member

theorem dumpSetup_ok {server : Server} {session : Session} {opts : DumpOptions} {st : DumpState sys}
    (ran : dumpSetup server session opts = .ok st) :
    ∃ opts', adjustRange server session opts.formatted = .ok opts' ∧
      (startMid opts = true → setupIncremental server session opts' = .ok st) ∧
      (startMid opts = false → st = setupFull server session opts') := by
  obtain ⟨opts', adjusted, ran⟩ := bind_eq_ok.mp ran
  obtain ⟨-, -, ran⟩ := bind_eq_ok.mp ran
  rw [TracedRepo.lift_eq_ok] at adjusted
  refine ⟨opts', adjusted, fun mid => ?_, fun mid => ?_⟩
  · simpa [mid] using ran
  · rw [mid] at ran
    exact (Except.ok.inj ran).symm

@[simp] theorem formatted_start (opts : DumpOptions) : opts.formatted.start = opts.start := by
  unfold DumpOptions.formatted
  split <;> rfl

@[simp] theorem formatted_stop (opts : DumpOptions) : opts.formatted.stop = opts.stop := by
  unfold DumpOptions.formatted
  split <;> rfl

@[simp] theorem formatted_keepRevnums (opts : DumpOptions) :
    opts.formatted.keepRevnums = opts.keepRevnums := by
  unfold DumpOptions.formatted
  split <;> rfl

@[simp] theorem formatted_incremental (opts : DumpOptions) :
    opts.formatted.incremental = opts.incremental := by
  unfold DumpOptions.formatted
  split <;> rfl

@[simp] theorem formatted_initialDryRun (opts : DumpOptions) :
    opts.formatted.initialDryRun = opts.initialDryRun := by
  unfold DumpOptions.formatted
  split <;> rfl

/-- The state a dump that does not start in the middle begins with. -/
theorem setupFull_fields (server : Server) (session : Session) {opts : DumpOptions}
    (positive : session.prefixPath.length > 0 → opts.start ≠ 0) :
    (setupFull server session opts : DumpState sys) =
      { delta := emptyDelta
        opts := opts
        logs := initialLogs session
        logsFetched := false
        globalRev := opts.start
        localRev := if opts.start = 0 then 0 else 1
        listIdx := 0
        out := fileHeader server session opts false } := by
  rw [setupFull, if_neg (fun both => positive both.1 both.2)]

theorem setupFull_pending {server : Server} {session : Session} (increasing : Increasing session server)
    {opts : DumpOptions} (valid : 0 ≤ opts.start) (positive : session.prefixPath.length > 0 → opts.start ≠ 0)
    (logged : ∃ log ∈ server.logs, log.revision = opts.stop) :
    Pending server (setupFull server session opts : DumpState sys)
      (server.logs.filter fun log => opts.start ≤ log.revision ∧ log.revision ≤ opts.stop) := by
  rw [setupFull_fields server session positive]
  obtain ⟨log, member, same⟩ := logged
  refine ⟨increasing.logs.sublist List.filter_sublist, ?_, by simp, fun _ => valid, by simp⟩
  intro final last
  have bounds := (List.mem_filter.mp (List.mem_of_getLast? last)).2
  simp only [decide_eq_true_eq] at bounds
  have maximal := le_getLast (increasing.logs.sublist List.filter_sublist) last
    (List.mem_filter.mpr ⟨member, by simp; omega⟩)
  simp only
  omega

/-- A full dump prints every revision up to its end, numbered from the start of the list. -/
theorem full_headers {server : Server} {session : Session} (increasing : Increasing session server)
    (changed : LastChanged server) (opts : DumpOptions) {stop created : Int}
    (last : server.createdRev stop = some created) :
    ∃ result, dump server session (fullOptions opts stop) = some result ∧
      ∀ st : DumpState sys, result = .ok st → headers st.out =
        numberHeaders opts.keepRevnums (initialLogs session).length (loggedUpTo server created) := by
  unfold dump
  cases setup : (dumpSetup server session (fullOptions opts stop) : Result sys (DumpState sys)) with
  | error e => exact ⟨.error e, rfl, by simp⟩
  | ok st =>
    obtain ⟨opts', adjusted, -, whole⟩ := dumpSetup_ok setup
    have st_eq := whole (by simp [startMid, fullOptions])
    obtain ⟨created', shape, subdirectory, root⟩ := adjustRange_ok increasing changed adjusted
    rw [formatted_stop] at created'
    have stop_eq : opts'.stop = created := by
      rw [show (fullOptions opts stop).stop = stop from rfl, last] at created'
      exact (Option.some.inj created').symm
    rw [formatted_start, show (fullOptions opts stop).start = 0 from rfl] at subdirectory root
    have logged := changed.logged _ _ last
    rw [← stop_eq] at logged
    have positive := adjustRange_positive increasing adjusted
    have low : ∀ log ∈ server.logs, opts'.start ≤ log.revision := by
      by_cases sub : session.prefixPath.length > 0
      · exact (subdirectory ⟨rfl, sub⟩).2.2.2
      · rw [root (fun both => sub both.2)]
        exact increasing.2
    have valid := adjustRange_nonneg increasing adjusted (by simp [fullOptions])
    have pending := @setupFull_pending sys _ _ increasing _ valid positive logged
    rw [← st_eq] at pending
    have entries : (server.logs.filter fun log => opts'.start ≤ log.revision ∧ log.revision ≤ opts'.stop) =
        server.logs.filter fun log => log.revision ≤ created := by
      apply List.filter_congr
      intro log member
      simp [low log member, stop_eq]
    rw [entries] at pending
    have nonempty : (server.logs.filter fun log => log.revision ≤ created) ≠ [] := by
      obtain ⟨log, member, same⟩ := logged
      exact List.ne_nil_of_mem (List.mem_filter.mpr ⟨member, by simp; omega⟩)
    have fields := @setupFull_fields sys server session _ positive
    rw [← st_eq] at fields
    have opts_eq : st.opts = opts' := by rw [fields]
    have wet : st.opts.initialDryRun = false := by
      rw [opts_eq, shape]
      simp [fullOptions]
    have keep : st.opts.keepRevnums = opts.keepRevnums := by
      rw [opts_eq, shape]
      simp [fullOptions]
    obtain ⟨result, looped, counted⟩ := pending.loop session nonempty
      (Nat.le_succ_of_le (List.length_filter_le _ _)) wet
    refine ⟨result, looped, fun final ok => ?_⟩
    have number : st.localRev = (initialLogs session).length := by
      rw [fields]
      by_cases sub : session.prefixPath.length > 0
      · simp [initialLogs, sub, positive sub]
      · simp [initialLogs, sub, root (fun both => sub both.2)]
    have start_out : headers st.out = [] := by rw [fields]; simp
    rw [counted final ok, start_out, keep, number, List.nil_append]
    congr 1
    exact map_filter_revision server.logs fun r => decide (r ≤ created)

/-! ## Incremental dumps -/

theorem dump_created {server : Server} {session : Session} {opts : DumpOptions} {st : DumpState sys}
    (ran : dump server session opts = some (.ok st)) : ∃ created, server.createdRev opts.stop = some created := by
  unfold dump at ran
  cases setup : (dumpSetup server session opts : Result sys (DumpState sys)) with
  | error e =>
    rw [setup] at ran
    cases ran
  | ok st =>
    obtain ⟨opts', adjusted, -, -⟩ := dumpSetup_ok setup
    obtain ⟨created, found, -⟩ := bind_eq_ok.mp adjusted
    rw [dumpDetermineEnd, orError_eq_ok, formatted_stop] at found
    exact ⟨created, found⟩

/-- In a list of increasing revisions the entries before `start` come first. -/
theorem preparedCount_split {logs : List LogRevision}
    (sorted : logs.Pairwise fun a b => a.revision < b.revision) (start : Int) :
    logs.take (preparedCount logs start) = (logs.filter fun log => log.revision < start) ∧
      logs.drop (preparedCount logs start) = logs.filter fun log => start ≤ log.revision := by
  induction logs with
  | nil => exact ⟨rfl, rfl⟩
  | cons log rest ih =>
    obtain ⟨later, sorted⟩ := List.pairwise_cons.mp sorted
    by_cases before : log.revision < start
    · obtain ⟨front, back⟩ := ih sorted
      have count : preparedCount (log :: rest) start = preparedCount rest start + 1 := by
        rw [preparedCount, List.takeWhile_cons_of_pos (by simpa using before), List.length_cons]
        rfl
      rw [count, List.take_succ_cons, List.drop_succ_cons, front, back,
        List.filter_cons_of_pos (by simpa using before), List.filter_cons_of_neg (by simpa using before)]
      exact ⟨rfl, rfl⟩
    · have count : preparedCount (log :: rest) start = 0 := by
        rw [preparedCount, List.takeWhile_cons_of_neg (by simpa using before), List.length_nil]
      have above : ∀ log' ∈ log :: rest, start ≤ log'.revision := by
        intro log' member
        rcases List.mem_cons.mp member with rfl | member
        · omega
        · have := later log' member
          omega
      rw [count, List.take_zero, List.drop_zero]
      refine ⟨?_, (List.filter_eq_self.mpr fun log' member => by simpa using above log' member).symm⟩
      rw [eq_comm, List.filter_eq_nil_iff]
      intro log' member
      simpa using above log' member

theorem created_nonneg {server : Server} {session : Session} (increasing : Increasing session server)
    (changed : LastChanged server) {opts : DumpOptions} {created : Int}
    (last : server.createdRev opts.stop = some created) : 0 ≤ created := by
  obtain ⟨log, member, rfl⟩ := changed.logged _ _ last
  exact increasing.2 log member

/-- An incremental dump that is set up: the base comes next, in a dry round. -/
structure AtBase (server : Server) (session : Session) (opts : DumpOptions) (created : Int) (st : DumpState sys)
    (i : Nat) (base : LogRevision) : Prop where
  index : baseIndex session (logList server session created) opts.start = i
  found : (logList server session created)[i]? = some base
  pending : Pending server st (base :: (logList server session created).drop (i + 1))
  dry : st.opts.initialDryRun = true
  keep : st.opts.keepRevnums = opts.keepRevnums
  number : st.localRev = if opts.keepRevnums then base.revision else i
  logs : st.logs = logList server session created
  fetched : st.logsFetched = true
  printed : headers st.out = []

theorem dumpSetup_atBase {server : Server} {session : Session} (increasing : Increasing session server)
    (changed : LastChanged server) {opts : DumpOptions} (mid : startMid opts = true) {created : Int}
    (last : server.createdRev opts.stop = some created) {st : DumpState sys}
    (setup : dumpSetup server session opts = .ok st) :
    ∃ (i : Nat) (base : LogRevision), AtBase server session opts created st i base := by
  obtain ⟨opts', adjusted, whole, -⟩ := dumpSetup_ok setup
  have ran := whole mid
  obtain ⟨created', shape, -, root⟩ := adjustRange_ok increasing changed adjusted
  rw [formatted_stop, last] at created'
  have nonzero : opts.start ≠ 0 := by
    intro zero
    simp [startMid, zero] at mid
  rw [formatted_start] at root
  have start_eq := root fun both => nonzero both.1
  have stop_eq : opts'.stop = created := (Option.some.inj created').symm
  have sorted := increasing.logList (created_nonneg increasing changed last)
  have pending := setupIncremental_pending (stop_eq ▸ sorted) ran
  obtain ⟨base, final, repo, -, found, -, -, opts_eq, logs, fetched, -, localRev, -, printed⟩ := setupIncremental_ok ran
  rw [stop_eq, start_eq] at pending found localRev
  rw [stop_eq] at logs
  obtain ⟨inside, found⟩ := logAt_eq_ok found
  obtain ⟨i, index⟩ := Int.eq_ofNat_of_zero_le inside
  rw [index] at found localRev pending
  simp only [Int.toNat_natCast] at found pending
  obtain ⟨bound, at_base⟩ := List.getElem?_eq_some_iff.mp found
  rw [List.drop_eq_getElem_cons bound, at_base] at pending
  have keep : opts'.keepRevnums = opts.keepRevnums := by
    rw [shape]
    simp
  refine ⟨i, base, index, found, pending, by rw [opts_eq], ?_, ?_, logs, fetched, printed⟩
  · rw [opts_eq]
    exact keep
  · rw [localRev, keep]

/-- The dry round prints nothing, and the number of the base counts as taken. -/
theorem AtBase.round {server : Server} {session : Session} {opts : DumpOptions} {created : Int} {st st' : DumpState sys}
    {i : Nat} {base : LogRevision} (setup : AtBase server session opts created st i base)
    (ran : dumpStep server session st = .ok st') :
    Pending server st' ((logList server session created).drop (i + 1)) ∧
      (st'.globalRev ≤ st'.opts.stop ↔ (logList server session created).drop (i + 1) ≠ []) ∧
      st'.opts.initialDryRun = false ∧ st'.opts.keepRevnums = opts.keepRevnums ∧
      st'.localRev = (if opts.keepRevnums then base.revision else i) + 1 ∧ headers st'.out = [] ∧
      st'.logs = logList server session created ∧ st'.logsFetched = true := by
  obtain ⟨pending, go_on, control, number, printed, fetched, logs⟩ := setup.pending.step ran
  have keep : st'.opts.keepRevnums = st.opts.keepRevnums := control_field control DumpOptions.keepRevnums fun _ => rfl
  rw [setup.dry, if_pos rfl, List.append_nil, setup.printed] at printed
  rw [roundNumber, setup.dry, if_pos rfl, setup.number] at number
  rw [setup.fetched, if_pos rfl, setup.logs] at logs
  exact ⟨pending, go_on, control_field control DumpOptions.initialDryRun fun _ => rfl, keep.trans setup.keep, number, printed,
    logs, fetched.trans setup.fetched⟩

/-- The entries from the base on: the headers printed are those of the entries after it. -/
theorem incremental_headers {server : Server} {session : Session} (increasing : Increasing session server)
    (changed : LastChanged server) {opts : DumpOptions} (mid : startMid opts = true) {created : Int}
    (last : server.createdRev opts.stop = some created) :
    ∃ result, dump server session opts = some result ∧ ∀ st : DumpState sys, result = .ok st →
      ∃ (i : Nat) (base : LogRevision),
        baseIndex session (logList server session created) opts.start = i ∧
        (logList server session created)[i]? = some base ∧
        headers st.out = numberHeaders opts.keepRevnums
          ((if opts.keepRevnums then base.revision else i) + 1)
          (((logList server session created).drop (i + 1)).map LogRevision.revision) := by
  unfold dump
  cases setup : (dumpSetup server session opts : Result sys (DumpState sys)) with
  | error e => exact ⟨.error e, rfl, by simp⟩
  | ok st =>
    obtain ⟨i, base, atBase⟩ := dumpSetup_atBase increasing changed mid last setup
    cases stepped : dumpStep server session st with
    | error e => exact ⟨.error e, by simp [dumpLoop, stepped], by simp⟩
    | ok st' =>
      obtain ⟨pending, go_on, wet, keep, number, printed, -⟩ := atBase.round stepped
      by_cases done : (logList server session created).drop (i + 1) = []
      · have finished : ¬ st'.globalRev ≤ st'.opts.stop := fun le => go_on.mp le done
        refine ⟨.ok st', by simp [dumpLoop, stepped, finished], ?_⟩
        intro final same
        cases same
        exact ⟨i, base, atBase.index, atBase.found, by rw [printed, done]; rfl⟩
      · have enough : ((logList server session created).drop (i + 1)).length ≤ server.logs.length := by
          have length : (logList server session created).length ≤ server.logs.length + 1 := by
            rw [logList, List.length_append, svnRaGetLog_zero increasing (created_nonneg increasing changed last)]
            have := List.length_filter_le (fun log : LogRevision => decide (log.revision ≤ created)) server.logs
            have := initialLogs_length_le session
            omega
          rw [List.length_drop]
          omega
        obtain ⟨result, looped, counted⟩ := pending.loop session done enough wet
        refine ⟨result, by simp [dumpLoop, stepped, go_on.mpr done, looped], fun final ok =>
          ⟨i, base, atBase.index, atBase.found, ?_⟩⟩
        rw [counted final ok, printed, keep, number, List.nil_append]

/-- What an incremental dump has to print: the logged revisions of its range under the numbers of
a full dump, so that it continues the full dump that ends before it. -/
structure SelectsRevisions (sys : Platform) (server : Server) (session : Session) (opts : DumpOptions)
    (created : Int) (printed : List (Option Int × Int)) : Prop where
  revisions : printed.filterMap Prod.fst = (loggedUpTo server created).filter (opts.start ≤ ·)
  numbers : ∀ r n, (some r, n) ∈ printed →
    if opts.keepRevnums then n = r
    else 0 ≤ n ∧ ((logList server session created).map LogRevision.revision)[n.toNat]? = some r
  padding : ∀ n, (none, n) ∈ printed → opts.keepRevnums = true ∧ n ∉ loggedUpTo server created ∧
    (∃ r, (some r, r) ∈ printed ∧ n < r) ∧ ∀ r ∈ loggedUpTo server created, r < opts.start → r < n
  continues : ∀ before full : DumpState sys,
    dump server session (fullOptions opts (opts.start - 1)) = some (.ok before) →
    dump server session (fullOptions opts opts.stop) = some (.ok full) →
    headers before.out ++ printed = headers full.out

theorem loggedUpTo_sorted {server : Server} {session : Session} (increasing : Increasing session server)
    (created : Int) : (loggedUpTo server created).Pairwise (· < ·) :=
  (List.pairwise_map.mpr increasing.logs).sublist List.filter_sublist

theorem sorted_split {revs : List Int} (sorted : revs.Pairwise (· < ·)) (start : Int) :
    revs = revs.filter (· < start) ++ revs.filter (start ≤ ·) := by
  induction revs with
  | nil => rfl
  | cons r rest ih =>
    obtain ⟨later, sorted⟩ := List.pairwise_cons.mp sorted
    by_cases before : r < start
    · rw [List.filter_cons_of_pos (by simpa using before), List.filter_cons_of_neg (by simpa using before),
        List.cons_append, ← ih sorted]
    · have all : (r :: rest).filter (start ≤ ·) = r :: rest := by
        rw [List.filter_eq_self]
        intro r' member
        rcases List.mem_cons.mp member with rfl | member
        · simpa using before
        · have := later r' member
          simp
          omega
      have none : (r :: rest).filter (· < start) = [] := by
        rw [List.filter_eq_nil_iff]
        intro r' member less
        have := List.mem_filter.mp (all ▸ member)
        simp only [decide_eq_true_eq] at less this
        omega
      rw [all, none, List.nil_append]

theorem loggedUpTo_split {server : Server} {session : Session} (increasing : Increasing session server)
    (created start : Int) :
    loggedUpTo server created =
      (loggedUpTo server created).filter (· < start) ++ (loggedUpTo server created).filter (start ≤ ·) :=
  sorted_split (loggedUpTo_sorted increasing created) start

section Incremental

variable {server : Server} {session : Session} (increasing : Increasing session server)
  (changed : LastChanged server) {opts : DumpOptions} {created : Int}
  (last : server.createdRev opts.stop = some created)

include increasing changed last

theorem logList_revisions :
    (logList server session created).map LogRevision.revision =
      (initialLogs session).map LogRevision.revision ++ loggedUpTo server created := by
  rw [logList, List.map_append, svnRaGetLog_zero increasing (created_nonneg increasing changed last)]
  congr 1
  exact map_filter_revision server.logs fun r => decide (r ≤ created)

/-- The list behind the prepared entries is the range of the dump. -/
theorem drop_prepared (started : 1 ≤ opts.start) :
    ((logList server session created).drop
        (preparedCount (logList server session created) opts.start)).map LogRevision.revision =
      (loggedUpTo server created).filter (opts.start ≤ ·) := by
  have sorted := increasing.logList (created_nonneg increasing changed last)
  rw [(preparedCount_split sorted opts.start).2]
  have dummies : ((initialLogs session).map LogRevision.revision).filter (opts.start ≤ ·) = [] := by
    rw [List.filter_eq_nil_iff]
    intro r member
    rw [mem_initialLogs_revisions member, decide_eq_true_eq]
    omega
  have mapped := map_filter_revision (logList server session created) fun r => decide (opts.start ≤ r)
  rw [mapped, logList_revisions increasing changed last, List.filter_append, dummies, List.nil_append]

/-- The prepared entries are the dummy revision, if any, and those a full dump ends with. -/
theorem take_prepared (started : 1 ≤ opts.start) :
    ((logList server session created).take
        (preparedCount (logList server session created) opts.start)).map LogRevision.revision =
      (initialLogs session).map LogRevision.revision ++ (loggedUpTo server created).filter (· < opts.start) := by
  have sorted := increasing.logList (created_nonneg increasing changed last)
  rw [(preparedCount_split sorted opts.start).1]
  have dummies : ((initialLogs session).map LogRevision.revision).filter (· < opts.start) =
      (initialLogs session).map LogRevision.revision := by
    rw [List.filter_eq_self]
    intro r member
    rw [mem_initialLogs_revisions member, decide_eq_true_eq]
    omega
  have mapped := map_filter_revision (logList server session created) fun r => decide (r < opts.start)
  rw [mapped, logList_revisions increasing changed last, List.filter_append, dummies]

theorem preparedCount_eq (started : 1 ≤ opts.start) :
    preparedCount (logList server session created) opts.start =
      (initialLogs session).length + ((loggedUpTo server created).filter (· < opts.start)).length := by
  have bound : preparedCount (logList server session created) opts.start ≤
      (logList server session created).length := (List.takeWhile_sublist _).length_le
  have lengths := congrArg List.length (take_prepared increasing changed last started)
  rwa [List.length_map, List.length_take, Nat.min_eq_left bound, List.length_append, List.length_map] at lengths

/-- The step back from the counted entries is taken exactly if a revision comes before `start`. -/
theorem several_prepared (started : 1 ≤ opts.start) (ordered : opts.stop = -1 ∨ opts.start ≤ opts.stop) :
    ((preparedCount (logList server session created) opts.start : Int) > 1 ∨ session.prefixPath.length = 0) ↔
      session.prefixPath = [] ∨ ∃ log ∈ server.logs, log.revision < opts.start := by
  have count := preparedCount_eq increasing changed last started
  have dummies := initialLogs_length session
  rw [List.length_eq_zero_iff]
  by_cases root : session.prefixPath = []
  · simp [root]
  · rw [if_pos (List.length_pos_iff.mpr root)] at dummies
    simp only [root, or_false, false_or]
    constructor
    · intro several
      obtain ⟨r, member⟩ := List.exists_mem_of_length_pos
        (show 0 < ((loggedUpTo server created).filter (· < opts.start)).length by omega)
      obtain ⟨logged, less⟩ := List.mem_filter.mp member
      obtain ⟨log, inside, rfl⟩ := List.mem_map.mp (List.mem_of_mem_filter logged)
      exact ⟨log, inside, by simpa using less⟩
    · rintro ⟨log, inside, less⟩
      have le := changed.last _ _ last log inside (by omega)
      have member : log.revision ∈ (loggedUpTo server created).filter (· < opts.start) :=
        List.mem_filter.mpr ⟨List.mem_filter.mpr ⟨List.mem_map_of_mem inside, by simpa using le⟩, by simpa using less⟩
      have := List.length_pos_of_mem member
      omega

/-- The base is then the last revision before `start`. -/
theorem base_before (started : 1 ≤ opts.start) {i : Nat} {base : LogRevision}
    (several : (preparedCount (logList server session created) opts.start : Int) > 1 ∨ session.prefixPath.length = 0)
    (next : i + 1 = preparedCount (logList server session created) opts.start)
    (found : (logList server session created)[i]? = some base) :
    ∃ earlier, (loggedUpTo server created).filter (· < opts.start) = earlier ++ [base.revision] := by
  have count := preparedCount_eq increasing changed last started
  have positive : 0 < ((loggedUpTo server created).filter (· < opts.start)).length := by
    have dummies := initialLogs_length session
    split at dummies <;> omega
  have here := congrArg (·[i]?) (take_prepared increasing changed last started)
  simp only [List.getElem?_map, List.getElem?_take, ← next, Nat.lt_succ_self, if_true, found, Option.map_some] at here
  rw [List.getElem?_append_right (by simp; omega), List.length_map] at here
  have place : i - (initialLogs session).length =
      ((loggedUpTo server created).filter (· < opts.start)).length - 1 := by omega
  rw [place, ← List.getLast?_eq_getElem?] at here
  exact ⟨_, (List.dropLast_append_getLast? _ here.symm).symm⟩

omit increasing in
/-- A full dump up to the revision before `start` ends with the last logged one before it. -/
theorem loggedUpTo_before (started : 1 ≤ opts.start) (ordered : opts.stop = -1 ∨ opts.start ≤ opts.stop)
    {previous : Int} (found : server.createdRev (opts.start - 1) = some previous) :
    loggedUpTo server previous = (loggedUpTo server created).filter (· < opts.start) := by
  have le : previous < opts.start := by
    have := changed.bound _ _ found
    omega
  rw [loggedUpTo, loggedUpTo, List.filter_filter]
  apply List.filter_congr
  intro r member
  obtain ⟨log, inside, rfl⟩ := List.mem_map.mp member
  have greatest := changed.last _ _ found log inside
  have whole := changed.last _ _ last log inside
  rw [Bool.eq_iff_iff]
  simp only [decide_eq_true_eq, Bool.and_eq_true]
  omega

/-- A full dump that ends with the base goes on with the number an incremental one begins with. -/
theorem nextNumber_base (started : 1 ≤ opts.start) {i : Nat} {base : LogRevision} {earlier : List Int}
    (index : (i + 1 : Nat) = preparedCount (logList server session created) opts.start)
    (before : (loggedUpTo server created).filter (· < opts.start) = earlier ++ [base.revision]) :
    nextNumber opts.keepRevnums (initialLogs session).length ((loggedUpTo server created).filter (· < opts.start)) =
      (if opts.keepRevnums then base.revision else i) + 1 := by
  cases keep : opts.keepRevnums with
  | true =>
    have sorted : (earlier ++ [base.revision]).Pairwise (· < ·) := by
      rw [← before]
      exact (loggedUpTo_sorted increasing created).sublist List.filter_sublist
    rw [before, nextNumber_keep sorted fun r member => ?_]
    · rfl
    · rw [← before] at member
      obtain ⟨log, inside, rfl⟩ := List.mem_map.mp (List.mem_of_mem_filter (List.mem_of_mem_filter member))
      exact increasing.length_le inside
  | false =>
    have count := preparedCount_eq increasing changed last started
    rw [nextNumber_plain]
    simp only [Bool.false_eq_true, if_false]
    omega

theorem selects_of_base (started : 1 ≤ opts.start) (ordered : opts.stop = -1 ∨ opts.start ≤ opts.stop)
    {i : Nat} {base : LogRevision} {earlier : List Int}
    (index : (i + 1 : Nat) = preparedCount (logList server session created) opts.start)
    (before : (loggedUpTo server created).filter (· < opts.start) = earlier ++ [base.revision]) :
    SelectsRevisions sys server session opts created
      (numberHeaders opts.keepRevnums ((if opts.keepRevnums then base.revision else i) + 1)
        ((loggedUpTo server created).filter (opts.start ≤ ·))) := by
  have sorted := loggedUpTo_sorted increasing created
  have small : ∀ r ∈ loggedUpTo server created, r < opts.start → r ≤ base.revision := by
    intro r member less
    have sorted_before : (earlier ++ [base.revision]).Pairwise (· < ·) := by
      rw [← before]
      exact sorted.sublist List.filter_sublist
    have inside : r ∈ earlier ++ [base.revision] := by
      rw [← before]
      exact List.mem_filter.mpr ⟨member, by simpa using less⟩
    rcases List.mem_append.mp inside with early | same
    · exact Int.le_of_lt ((List.pairwise_append.mp sorted_before).2.2 r early _ (by simp))
    · rw [List.mem_singleton.mp same]
  have base_small : base.revision < opts.start := by
    have inside : base.revision ∈ (loggedUpTo server created).filter (· < opts.start) := by
      rw [before]
      simp
    simpa using (List.mem_filter.mp inside).2
  have range_sorted := sorted.sublist (@List.filter_sublist _ (fun r => decide (opts.start ≤ r)) _)
  have range_low : ∀ r ∈ (loggedUpTo server created).filter (opts.start ≤ ·), base.revision + 1 ≤ r := by
    intro r member
    have := (List.mem_filter.mp member).2
    simp only [decide_eq_true_eq] at this
    omega
  refine ⟨numberHeaders_revisions _ _ _, ?_, ?_, ?_⟩
  · intro r n member
    cases keep : opts.keepRevnums with
    | true =>
      rw [keep] at member
      exact ((mem_numberHeaders_keep range_sorted range_low member).1 r rfl).1
    | false =>
      -- plain numbers are places in the list, behind the prepared entries
      rw [keep] at member
      obtain ⟨j, value, found⟩ := mem_numberHeaders_plain.mp member
      simp only [Bool.false_eq_true, if_false] at value ⊢
      refine ⟨by omega, ?_⟩
      rw [← drop_prepared increasing changed last started, ← index, List.map_drop, List.getElem?_drop] at found
      rw [← found]
      congr 1
      omega
  · intro n member
    cases keep : opts.keepRevnums with
    | false =>
      rw [keep] at member
      exact absurd member not_pad_mem_plain
    | true =>
      rw [keep] at member
      obtain ⟨above, outside, printed⟩ := mem_numberHeaders_pad range_sorted range_low member
      refine ⟨rfl, fun logged => ?_, printed, fun r logged less => ?_⟩
      · by_cases less : n < opts.start
        · have := small n logged less
          omega
        · exact outside (List.mem_filter.mpr ⟨logged, by simpa using less⟩)
      · have := small r logged less
        omega
  · intro before_st full ran_before ran_full
    obtain ⟨previous, found⟩ : ∃ previous, server.createdRev (opts.start - 1) = some previous :=
      dump_created ran_before
    obtain ⟨result, ran, counted⟩ := @full_headers sys _ _ increasing changed opts _ _ found
    obtain ⟨result', ran', counted'⟩ := @full_headers sys _ _ increasing changed opts _ _ last
    rw [ran_before] at ran
    rw [ran_full] at ran'
    rw [counted before_st (Option.some.inj ran).symm, counted' full (Option.some.inj ran').symm,
      loggedUpTo_before changed last started ordered found]
    conv_rhs => rw [loggedUpTo_split increasing created opts.start]
    rw [numberHeaders_append, nextNumber_base increasing changed last started index before]

end Incremental

/-- An incremental dump prints the right headers exactly if there is a revision of the session
root before its start; the log of the repository root always has one. -/
theorem incremental_selects_iff {server : Server} {session : Session} (increasing : Increasing session server)
    (changed : LastChanged server) {opts : DumpOptions} (incremental : opts.incremental = true)
    (started : 1 ≤ opts.start) (ordered : opts.stop = -1 ∨ opts.start ≤ opts.stop) {created : Int}
    (last : server.createdRev opts.stop = some created) :
    ∃ result, dump server session opts = some result ∧ ∀ st : DumpState sys, result = .ok st →
      (SelectsRevisions sys server session opts created (headers st.out) ↔
        session.prefixPath = [] ∨ ∃ log ∈ server.logs, log.revision < opts.start) := by
  have mid : startMid opts = true := by
    simp [startMid, incremental]
    omega
  obtain ⟨result, ran, printed⟩ := @incremental_headers sys _ _ increasing changed _ mid _ last
  refine ⟨result, ran, fun st ok => ?_⟩
  obtain ⟨i, base, index, found, counted⟩ := printed st ok
  have dropped := drop_prepared increasing changed last started
  have condition := several_prepared increasing changed last started ordered
  rw [counted]
  constructor
  · -- the base is taken from the range when only the dummy revision comes before it
    intro selects
    by_contra neither
    rw [baseIndex, if_neg (mt condition.mp neither)] at index
    have lengths := congrArg List.length selects.revisions
    rw [numberHeaders_revisions, ← dropped, List.length_map, List.length_map, List.length_drop,
      List.length_drop] at lengths
    have := (List.getElem?_eq_some_iff.mp found).1
    omega
  · intro earliest
    have several := condition.mpr earliest
    rw [baseIndex, if_pos several] at index
    have next : i + 1 = preparedCount (logList server session created) opts.start := by omega
    obtain ⟨earlier, before⟩ := base_before increasing changed last started several next found
    rw [next, dropped]
    exact selects_of_base increasing changed last started ordered next before

/-! A directory `trunk` that is made in revision 1 and gets a file in revision 2. -/

def trunkSession : Session := ⟨cstr "trunk"⟩

def plainLog (revision : Int) (changes : List ((_ : CString) × ChangedPath)) : LogRevision :=
  ⟨revision, none, none, none, some changes.toAList⟩

def trunkServer : Server where
  uuid := []
  createdRev rev := if rev = -1 ∨ 2 ≤ rev then some 2 else if rev = 1 then some 1 else none
  checkPath rev := if rev = 0 then .none else .dir
  logs := [plainLog 1 [⟨[], .add, none⟩], plainLog 2 [⟨cstr "a", .add, none⟩]]
  diff _ dest _ := ⟨[], if dest = 2 then .addFile (cstr "a") [] (some fun _ => [1]) .done else .done⟩
  listing _ _ := .missing

theorem trunkServer_increasing : Increasing trunkSession trunkServer := by
  refine ⟨?_, ?_⟩
  · rw [show initialLogs trunkSession = [LogRevision.dummy] from rfl]
    simp [trunkServer, plainLog, LogRevision.dummy]
  · simp [trunkServer, plainLog]

theorem trunkServer_lastChanged : LastChanged trunkServer := by
  have answer : ∀ rev r, trunkServer.createdRev rev = some r →
      (r = 2 ∧ (rev = -1 ∨ 2 ≤ rev)) ∨ (r = 1 ∧ rev = 1) := by
    intro rev r found
    simp only [trunkServer] at found
    split at found
    · next late => exact .inl ⟨(Option.some.inj found).symm, late⟩
    · split at found
      · next first => exact .inr ⟨(Option.some.inj found).symm, first⟩
      · cases found
  have revisions : ∀ log ∈ trunkServer.logs, log.revision = 1 ∨ log.revision = 2 := by
    simp [trunkServer, plainLog]
  refine ⟨fun rev r found => ?_, fun rev r found => ?_, fun rev r found log member before => ?_⟩
  · rcases answer rev r found with ⟨rfl, -⟩ | ⟨rfl, -⟩ <;> simp [trunkServer, plainLog]
  · have := answer rev r found
    omega
  · have := answer rev r found
    have := revisions log member
    omega

def incrementalFrom (start : Int) : DumpOptions := { DumpOptions.create with start := start, incremental := true }

/-- The headers of a dump that succeeds. -/
def streamHeaders : Option (Result sys (DumpState sys)) → Option (List (Option Int × Int))
  | some (.ok st) => some (headers st.out)
  | _ => none

theorem streamHeaders_eq_some {result : Option (Result sys (DumpState sys))}
    {printed : List (Option Int × Int)} (found : streamHeaders result = some printed) :
    ∃ st, result = some (.ok st) ∧ headers st.out = printed := by
  unfold streamHeaders at found
  split at found
  · next st => exact ⟨st, rfl, Option.some.inj found⟩
  · cases found

/-- Starting at the first revision of the directory loses it: revision 1 is only fetched. -/
theorem incremental_loses_first :
    ∃ st : DumpState .plain, dump trunkServer trunkSession (incrementalFrom 1) = some (.ok st) ∧
      headers st.out = [(some 2, 2)] ∧
      ¬ SelectsRevisions .plain trunkServer trunkSession (incrementalFrom 1) 2 (headers st.out) := by
  obtain ⟨st, ran, printed⟩ := streamHeaders_eq_some (show streamHeaders
    (dump trunkServer trunkSession (incrementalFrom 1) : Option (Result .plain (DumpState .plain))) =
      some [(some 2, 2)] by decide)
  refine ⟨st, ran, printed, fun selects => ?_⟩
  have revisions := selects.revisions
  rw [printed] at revisions
  exact absurd revisions (by decide)

/-- Starting one revision later continues the full dump. -/
theorem incremental_selects_second :
    (∃ log ∈ trunkServer.logs, log.revision < (incrementalFrom 2).start) ∧
    ∃ st : DumpState .plain, dump trunkServer trunkSession (incrementalFrom 2) = some (.ok st) ∧
      SelectsRevisions .plain trunkServer trunkSession (incrementalFrom 2) 2 (headers st.out) := by
  have earlier : ∃ log ∈ trunkServer.logs, log.revision < (incrementalFrom 2).start :=
    ⟨plainLog 1 [⟨[], .add, none⟩], by simp [trunkServer], by decide⟩
  obtain ⟨result, ran, selects⟩ := @incremental_selects_iff .plain _ _ trunkServer_increasing
    trunkServer_lastChanged (incrementalFrom 2) rfl (by decide) (.inl rfl) 2 rfl
  obtain ⟨st, ok, -⟩ := streamHeaders_eq_some (show streamHeaders
    (dump trunkServer trunkSession (incrementalFrom 2) : Option (Result .plain (DumpState .plain))) =
      some [(some 2, 2)] by decide)
  rw [ok] at ran
  exact ⟨earlier, st, ok, (selects st (Option.some.inj ran).symm).mpr (.inr earlier)⟩

end Rsvndump
