import Rsvndump.Dump.Calls

/-! What a whole dump leaves in the path storage.

The calls of every run, also of one that fails, follow the course of its plan.
-/

set_option autoImplicit false

namespace Rsvndump

open Library

variable {sys : Platform} {server : Server} {plan : Plan} {early : Prop} {log : LogRevision}

/-! ## Preparation -/

section Preparation

variable {session : Session} {opts : DumpOptions} {kept : TracedRepo sys → Prop} {asked : Int → Prop}

theorem addAll_kept (closed : Closed kept asked) (paths : List CString) {t : TracedRepo sys} (holds : kept t) :
    kept (addAll t paths) := by
  unfold addAll
  induction paths generalizing t with
  | nil => exact holds
  | cons path paths ih => exact ih (closed.add t path holds)

theorem commitPath_post (closed : Closed kept asked) {listing : CString → Int → RemoteNode} {revision : Int}
    {logs : List LogRevision} {path : CString} {info : ChangedPath} {t : TracedRepo sys} (holds : kept t)
    (asks : ∀ source original, info.copyfrom = some (source, original) → session.prefixPath <+: source →
      asked (deltaGetLocalCopyfromRev original opts logs)) :
    Post kept (fun e => kept e.repo) (commitPath listing session opts revision logs t path info) := by
  have deleted : kept (if info.action = .delete ∨ info.action = .replace then t.delete path else t) := by
    split
    · exact closed.delete t path holds
    · exact holds
  unfold commitPath
  simp only
  split
  · exact deleted
  · split
    · exact closed.add _ path deleted
    · next source original copied =>
      unfold commitCopy
      split
      · exact Post.bind (post_orError_fails deleted) fun cpaths _ => addAll_kept closed cpaths deleted
      · next copyfromPath inside =>
        have prefixed : session.prefixPath <+: source := by
          unfold deltaGetLocalCopyfromPath at inside
          split at inside
          · assumption
          · cases inside
        have query := asks source original copied prefixed
        have answers : ∀ answer : CbSet × TracedRepo sys,
            (if info.action = .delete ∨ info.action = .replace then t.delete path else t).tree
              (deltaGetLocalCopyfromRev original opts logs) = some answer → kept answer.2 :=
          fun answer found => closed.query _ _ _ _ query deleted found
        refine Post.bind (post_orError answers deleted) fun answer holds' => ?_
        simp only
        split
        · exact addAll_kept closed _ holds'
        · exact holds'

theorem pathRepoCommitLog_post (closed : Closed kept asked) {listing : CString → Int → RemoteNode}
    {log : LogRevision} {revision : Int} {logs : List LogRevision} {t : TracedRepo sys} (holds : kept t)
    (asks : ∀ source original, LoggedSource log source original → session.prefixPath <+: source →
      asked (deltaGetLocalCopyfromRev original opts logs)) :
    Post (fun t' => ∃ before, kept before ∧ t' = before.commit revision) (fun e => kept e.repo)
      (pathRepoCommitLog listing session opts log revision logs t) := by
  unfold pathRepoCommitLog
  split
  · exact ⟨t, holds, rfl⟩
  · next table changed =>
    have applied : Post kept (fun e => kept e.repo)
        (commitPaths listing session opts log.revision logs table (utilsSort table.keys) t) := by
      refine post_foldlM holds fun t path _ holds => ?_
      split
      · exact holds
      · next info found =>
        refine commitPath_post closed holds fun source original copied => ?_
        exact asks source original ⟨table, path, info, changed, found, copied⟩
    exact Post.bind applied fun t' holds' => ⟨t', holds', rfl⟩

end Preparation

/-- The number after those of the entries that are prepared. -/
def nextFree (keep : Bool) (done : List LogRevision) : Int :=
  if keep then (done.getLast?.map fun log => log.revision + 1).getD 0 else done.length

/-- The path storage after the preparation of some entries. -/
structure Prepared (plan : Plan) (early : Prop) (done : List LogRevision) (t : TracedRepo sys) : Prop where
  course : Course plan.left plan.asked early (nextFree plan.keep done) t
  head : t.repo.head + 1 = nextFree plan.keep done ∨ done = [] ∧ t.repo.head = 0

theorem nextFree_snoc (keep : Bool) (done : List LogRevision) (log : LogRevision) :
    nextFree keep (done ++ [log]) = (if keep then log.revision else (done.length : Int)) + 1 := by
  unfold nextFree
  cases keep <;> simp

theorem lt_nextFree {done : List LogRevision} (sorted : done.Pairwise fun a b => a.revision < b.revision)
    (member : log ∈ done) : log.revision < nextFree true done := by
  cases done using List.reverseRecOn with
  | nil => cases member
  | append_singleton init final =>
    rw [nextFree_snoc]
    simp only [if_true]
    rcases List.mem_append.mp member with early | last
    · have := (List.pairwise_append.mp sorted).2.2 log early final (by simp)
      omega
    · rw [List.mem_singleton.mp last]
      omega

theorem nextFree_le {done rest : List LogRevision} (sorted : (done ++ log :: rest).Pairwise fun a b => a.revision < b.revision)
    (nonneg : 0 ≤ log.revision) : nextFree true done ≤ log.revision := by
  cases done using List.reverseRecOn with
  | nil => simpa [nextFree] using nonneg
  | append_singleton init final =>
    rw [nextFree_snoc]
    simp only [if_true]
    have := (List.pairwise_append.mp sorted).2.2 final (by simp) log List.mem_cons_self
    omega

theorem commit_head (t : TracedRepo sys) (n : Int) : (t.commit n).repo.head = n := by
  simp only [TracedRepo.commit, pathRepoCommit]
  split <;> rfl

/-- What the preparation relies on. -/
structure Prepares (server : Server) (session : Session) (opts : DumpOptions) (plan : Plan) : Prop where
  isSession : plan.session = session
  isMid : plan.mid = true
  keep : plan.keep = opts.keepRevnums
  start : plan.start = opts.start
  sorted : plan.logs.Pairwise fun a b => a.revision < b.revision
  nonneg : ∀ log ∈ plan.logs, 0 ≤ log.revision
  listed : ∀ log ∈ plan.logs, log = .dummy ∨ log ∈ server.logs
  base : ∀ log ∈ plan.logs, log.revision < opts.start → log.revision ≤ plan.base

theorem LoggedSource.not_dummy {source : CString} {original : Int} : ¬ LoggedSource .dummy source original := by
  rintro ⟨table, path, info, changed, -⟩
  cases changed

section

variable {session : Session} {opts : DumpOptions} (prepares : Prepares server session opts plan)
  (earlier : SourcesEarlier server)

include prepares

theorem Prepares.pass {done rest : List LogRevision} {t : TracedRepo sys} (split : plan.logs = done ++ log :: rest)
    (before : log.revision < opts.start) (prepared : Prepared plan early done t) :
    Course plan.left plan.asked early (if plan.keep then log.revision else (done.length : Int)) t := by
  cases keep : plan.keep with
  | false =>
    have course := prepared.course
    rw [nextFree, keep] at course
    exact course
  | true =>
    have sorted := prepares.sorted
    rw [split, List.pairwise_append] at sorted
    have course := prepared.course
    have le := nextFree_le (List.pairwise_append.mpr sorted) (prepares.nonneg log (by rw [split]; simp))
    rw [keep] at course
    simp only [if_true]
    refine course.pass le fun s _ low high => ⟨prepares.isMid, keep, ?_, fun log' member same => ?_⟩
    · have := prepares.base log (by rw [split]; simp) before
      omega
    · rw [split, List.mem_append, List.mem_cons] at member
      rcases member with early | here | late
      · have := lt_nextFree sorted.1 early
        omega
      · rw [here] at same
        omega
      · have := (List.pairwise_cons.mp sorted.2.1).1 log' late
        omega

include earlier

theorem Prepares.asks {done rest : List LogRevision} (split : plan.logs = done ++ log :: rest)
    {source : CString} {original : Int} (logged : LoggedSource log source original)
    (inside : session.prefixPath <+: source) :
    plan.asked (deltaGetLocalCopyfromRev original opts plan.logs) ∧
      deltaGetLocalCopyfromRev original opts plan.logs < (if plan.keep then log.revision else (done.length : Int)) := by
  have member : log ∈ plan.logs := by
    rw [split]
    simp
  have before : original < log.revision := by
    rcases prepares.listed log member with dummy | known
    · rw [dummy] at logged
      exact absurd logged LoggedSource.not_dummy
    · exact earlier log known source original logged
  unfold deltaGetLocalCopyfromRev
  rw [← prepares.keep]
  cases keep : plan.keep with
  | true =>
    simp only [if_true]
    refine ⟨fun _ _ _ => .inr ⟨log, member, source, logged, ?_⟩, before⟩
    rw [prepares.isSession]
    exact inside
  | false =>
    simp only [Bool.false_eq_true, if_false]
    refine ⟨fun _ _ wrong => by simp [keep] at wrong, ?_⟩
    rcases copyfromLoop_cases original plan.logs (plan.logs.length - 1) with none | ⟨i, log', _, value, found, le⟩
    · omega
    · rw [value]
      by_contra behind
      have here : plan.logs[done.length]? = some log := by
        rw [split]
        simp
      have sorted := List.pairwise_iff_getElem.mp prepares.sorted
      obtain ⟨low, low_eq⟩ := List.getElem?_eq_some_iff.mp here
      obtain ⟨high, high_eq⟩ := List.getElem?_eq_some_iff.mp found
      by_cases same : done.length = i
      · subst same
        rw [low_eq] at high_eq
        subst high_eq
        omega
      · have := sorted _ _ low high (by omega)
        rw [low_eq, high_eq] at this
        omega

theorem prepareHistory_post {done rest : List LogRevision} {t : TracedRepo sys} (split : plan.logs = done ++ rest)
    (all : ∀ log ∈ done, log.revision < opts.start) (prepared : Prepared plan early done t) :
    Post (fun result => Prepared plan early (plan.logs.takeWhile fun log => log.revision < opts.start) result.2)
      (fun e => ∃ n, Course plan.left plan.asked early n e.repo)
      (prepareHistory server session opts plan.logs rest done.length t) := by
  have taken : plan.logs.takeWhile (fun log => log.revision < opts.start) =
      done ++ rest.takeWhile fun log => log.revision < opts.start := by
    rw [split]
    exact List.takeWhile_append_of_pos fun log member => by simpa using all log member
  rw [taken]
  clear taken
  induction rest generalizing done t with
  | nil =>
    rw [prepareHistory, List.takeWhile_nil, List.append_nil]
    exact prepared
  | cons log rest ih =>
    rw [prepareHistory]
    by_cases before : log.revision < opts.start
    · rw [if_pos before, List.takeWhile_cons_of_pos (by simpa using before)]
      simp only
      have course := prepares.pass split before prepared
      have closed : Closed (fun t : TracedRepo sys => Course plan.left plan.asked early
          (if plan.keep then log.revision else (done.length : Int)) t)
          (fun r => plan.asked r ∧ r < (if plan.keep then log.revision else (done.length : Int))) :=
        ⟨fun t path => Course.add path, fun t path => Course.delete path,
          fun t t' r found asks course reached => course.query asks.1 asks.2 reached⟩
      have asks : ∀ source original, LoggedSource log source original → session.prefixPath <+: source →
          plan.asked (deltaGetLocalCopyfromRev original opts plan.logs) ∧
            deltaGetLocalCopyfromRev original opts plan.logs <
              (if plan.keep then log.revision else (done.length : Int)) :=
        fun source original logged inside => prepares.asks earlier split logged inside
      refine Post.bind ((pathRepoCommitLog_post closed course asks).mono (fun _ _ => id) fun e kept => ⟨_, kept⟩) fun t' result => ?_
      obtain ⟨previous, kept, same⟩ := result
      rw [← prepares.keep] at same
      have next : Prepared plan early (done ++ [log]) t' := by
        refine ⟨?_, .inl ?_⟩
        · rw [nextFree_snoc, same]
          exact kept.commit
        · rw [nextFree_snoc, same, commit_head]
      have tail := @ih (done ++ [log]) t' (by rw [split]; simp) (fun log' member => ?_) next
      · rw [List.length_append, List.length_singleton, List.append_assoc, List.singleton_append] at tail
        push_cast at tail
        exact tail
      · rcases List.mem_append.mp member with old | last
        · exact all log' old
        · rw [List.mem_singleton.mp last]
          exact before
    · rw [if_neg before, List.takeWhile_cons_of_neg (by simpa using before), List.append_nil]
      exact prepared

end

/-! ## Set-up -/

/-- The revision that an incremental dump fetches in the dry run, 0 if there is none. -/
def baseRevision (server : Server) (session : Session) (opts : DumpOptions) : Int :=
  match logAt (logList server session opts.stop)
      (baseIndex session (logList server session opts.stop) opts.start) with
  | .ok base => base.revision
  | .error _ => 0

/-- The plan of a dump with adjusted options. -/
def planOf (server : Server) (session : Session) (opts : DumpOptions) (mid : Bool) : Plan where
  session := session
  mid := mid
  keep := opts.keepRevnums
  base := baseRevision server session opts
  logs := logList server session opts.stop
  start := opts.start

section Setup

variable {session : Session} {opts : DumpOptions}

theorem logList_listed (server : Server) (session : Session) (stop : Int) :
    ∀ log ∈ logList server session stop, log = .dummy ∨ log ∈ server.logs := by
  intro log member
  rcases List.mem_append.mp member with dummy | fetched
  · exact .inl (mem_initialLogs.mp dummy).1
  · exact .inr (mem_of_svnRaGetLog fetched)

theorem takeWhile_prepared (logs : List LogRevision) (start : Int) :
    (logs.takeWhile fun log => log.revision < start) = logs.take (preparedCount logs start) := by
  have isPrefix := List.takeWhile_prefix (l := logs) fun log => decide (log.revision < start)
  exact List.prefix_iff_eq_take.mp isPrefix

theorem logList_head (server : Server) (stop : Int) (sub : session.prefixPath.length > 0) :
    (logList server session stop)[0]? = some .dummy := by
  simp [logList, initialLogs, sub]

/-- The dummy entry of a subdirectory is always prepared. -/
theorem preparedCount_pos (server : Server) (stop : Int) (sub : session.prefixPath.length > 0) {start : Int}
    (positive : 0 < start) : 1 ≤ preparedCount (logList server session stop) start := by
  rw [preparedCount, logList, initialLogs, if_pos sub, List.singleton_append,
    List.takeWhile_cons_of_pos (by simp [LogRevision.dummy, positive]), List.length_cons]
  omega

theorem mem_prepared {logs : List LogRevision} (sorted : logs.Pairwise fun a b => a.revision < b.revision)
    {start : Int} {i : Nat} (found : logs[i]? = some log) :
    log.revision < start ↔ i < preparedCount logs start := by
  obtain ⟨front, back⟩ := preparedCount_split sorted start
  constructor
  · intro before
    by_contra behind
    have inside : log ∈ logs.drop (preparedCount logs start) := by
      refine List.mem_of_getElem? (i := i - preparedCount logs start) ?_
      rw [List.getElem?_drop, show preparedCount logs start + (i - preparedCount logs start) = i by omega]
      exact found
    rw [back, List.mem_filter] at inside
    have := inside.2
    simp only [decide_eq_true_eq] at this
    omega
  · intro below
    have inside : log ∈ logs.take (preparedCount logs start) := by
      refine List.mem_of_getElem? (i := i) ?_
      rw [List.getElem?_take_of_lt below]
      exact found
    rw [front, List.mem_filter] at inside
    simpa using inside.2

theorem sorted_get {logs : List LogRevision} (sorted : logs.Pairwise fun a b => a.revision < b.revision) {i j : Nat}
    {a b : LogRevision} (first : logs[i]? = some a) (second : logs[j]? = some b) (le : i ≤ j) :
    a.revision ≤ b.revision := by
  obtain ⟨low, low_eq⟩ := List.getElem?_eq_some_iff.mp first
  obtain ⟨high, high_eq⟩ := List.getElem?_eq_some_iff.mp second
  by_cases same : i = j
  · subst same
    rw [low_eq] at high_eq
    rw [high_eq]
  · have := List.pairwise_iff_getElem.mp sorted i j low high (by omega)
    rw [low_eq, high_eq] at this
    omega

theorem logAt_eq_error {logs : List LogRevision} {i : Int} {e : DumpError} (missing : logAt logs i = .error e) :
    i < 0 ∨ logs.length ≤ i.toNat := by
  unfold logAt at missing
  split at missing
  · next negative => exact .inl negative
  · cases entry : logs[i.toNat]? with
    | none => exact .inr (List.getElem?_eq_none_iff.mp entry)
    | some log => simp [entry, orError] at missing

/-- Whatever is prepared lies up to the base. -/
theorem prepares_planOf (increasing : Increasing session server) (stop : 0 ≤ opts.stop) :
    Prepares server session opts (planOf server session opts true) := by
  have sorted := increasing.logList stop
  have nonneg : ∀ log ∈ logList server session opts.stop, 0 ≤ log.revision := by
    intro log member
    rcases logList_listed server session opts.stop log member with dummy | known
    · rw [dummy]
      decide
    · exact increasing.2 log known
  refine ⟨rfl, rfl, rfl, rfl, sorted, nonneg, logList_listed server session opts.stop, ?_⟩
  intro log member before
  obtain ⟨i, found⟩ := List.getElem?_of_mem member
  have below := (mem_prepared sorted found).mp before
  have count : preparedCount (logList server session opts.stop) opts.start ≤ (logList server session opts.stop).length :=
    (List.takeWhile_prefix _).length_le
  have base_eq : (planOf server session opts true).base = baseRevision server session opts := rfl
  rw [base_eq, baseRevision]
  split
  · next base reached =>
    obtain ⟨valid, listed⟩ := logAt_eq_ok reached
    unfold baseIndex at listed
    split at listed
    · exact sorted_get sorted found listed (by omega)
    · exact sorted_get sorted found listed (by omega)
  · next error missing =>
    -- only the dummy entry can have been prepared
    have outside := logAt_eq_error missing
    unfold baseIndex at outside
    split at outside
    · omega
    · have first : i = 0 := by omega
      have sub : session.prefixPath.length > 0 := by omega
      subst first
      have same : log = .dummy := Option.some.inj (found.symm.trans (logList_head server opts.stop sub))
      rw [same]
      decide

theorem planOf_base {base : LogRevision} {mid : Bool}
    (found : logAt (logList server session opts.stop)
      (baseIndex session (logList server session opts.stop) opts.start) = .ok base) :
    (planOf server session opts mid).base = base.revision := by
  simp [planOf, baseRevision, found]

/-- The preparation ends just before the number of the dry run, or before the first entry. -/
theorem nextFree_prepared (increasing : Increasing session server) {base : LogRevision}
    (found : logAt (logList server session opts.stop)
      (baseIndex session (logList server session opts.stop) opts.start) = .ok base) {number free : Int}
    (number_eq : number =
      if opts.keepRevnums then base.revision else baseIndex session (logList server session opts.stop) opts.start)
    (free_eq : free = nextFree opts.keepRevnums
      ((logList server session opts.stop).takeWhile fun log => log.revision < opts.start)) :
    (free = number + 1 ∨ (free ≤ 1 ∧ (opts.keepRevnums = false → number ≤ 1))) ∧ 0 ≤ number := by
  obtain ⟨valid, listed⟩ := logAt_eq_ok found
  have nonneg : 0 ≤ base.revision := by
    rcases logList_listed server session opts.stop base (List.mem_of_getElem? listed) with dummy | known
    · rw [dummy]
      decide
    · exact increasing.2 base known
  have count : preparedCount (logList server session opts.stop) opts.start ≤ (logList server session opts.stop).length :=
    (List.takeWhile_prefix _).length_le
  rw [takeWhile_prepared] at free_eq
  refine ⟨?_, by rw [number_eq]; split <;> assumption⟩
  unfold baseIndex at valid listed number_eq
  cases keep : opts.keepRevnums with
  | false =>
    simp only [keep, Bool.false_eq_true, if_false] at number_eq
    rw [nextFree, keep] at free_eq
    simp only [Bool.false_eq_true, if_false, List.length_take, Nat.min_eq_left count] at free_eq
    split at number_eq
    · exact .inl (by omega)
    · exact .inr ⟨by omega, fun _ => by omega⟩
  | true =>
    simp only [keep, if_true] at number_eq
    rw [nextFree, keep] at free_eq
    simp only [if_true] at free_eq
    split at valid
    · next many =>
      rw [if_pos many] at listed
      left
      rw [free_eq, number_eq, List.getLast?_take, if_neg (by omega),
        show preparedCount (logList server session opts.stop) opts.start - 1 =
          ((preparedCount (logList server session opts.stop) opts.start : Int) - 1).toNat by omega, listed]
      rfl
    · next few =>
      have sub : session.prefixPath.length > 0 := by omega
      refine .inr ⟨?_, fun wrong => absurd wrong.symm Bool.false_ne_true⟩
      rw [free_eq]
      cases prepared : preparedCount (logList server session opts.stop) opts.start with
      | zero => simp
      | succ k =>
        have first : k = 0 := by omega
        subst first
        rw [List.getLast?_take, if_neg (by omega), logList_head server opts.stop sub]
        simp [LogRevision.dummy]

/-- The preparation of an incremental dump goes through all logged revisions before its start. -/
theorem prepareHistory_planOf (increasing : Increasing session server) (earlier : SourcesEarlier server) (stop : 0 ≤ opts.stop) :
    Post (fun result => Prepared (planOf server session opts true) early
        ((logList server session opts.stop).takeWhile fun log => log.revision < opts.start) result.2)
      (fun e => ∃ n, Course (planOf server session opts true).left (planOf server session opts true).asked early n e.repo)
      (prepareHistory server session opts (logList server session opts.stop) (logList server session opts.stop) 0
        (.create : TracedRepo sys)) := by
  have start : Prepared (planOf server session opts true) early [] (.create : TracedRepo sys) := by
    refine ⟨?_, .inr ⟨rfl, rfl⟩⟩
    have free : nextFree (planOf server session opts true).keep [] = 0 := by
      unfold nextFree
      split <;> rfl
    rw [free]
    exact .create
  exact prepareHistory_post (prepares_planOf increasing stop) earlier (List.nil_append _).symm (by simp) start

/-- No snapshot is due between the prepared entries and the base, except with --keep-revnums. -/
theorem Prepared.pass_base {t : TracedRepo sys}
    (done : Prepared (planOf server session opts true) early
      ((logList server session opts.stop).takeWhile fun log => log.revision < opts.start) t)
    (increasing : Increasing session server) (stop : 0 ≤ opts.stop) {base : LogRevision}
    (found : logAt (logList server session opts.stop)
      (baseIndex session (logList server session opts.stop) opts.start) = .ok base) {number : Int}
    (number_eq : number =
      if opts.keepRevnums then base.revision else baseIndex session (logList server session opts.stop) opts.start) :
    Course (planOf server session opts true).left (planOf server session opts true).asked early (number + 1) t := by
  have sorted := increasing.logList stop
  have base_eq : (planOf server session opts true).base = base.revision := planOf_base found
  obtain ⟨near, nonneg⟩ := nextFree_prepared increasing found number_eq rfl
  refine done.course.pass ?_ fun s snapshot low high => ?_
  · change nextFree opts.keepRevnums _ ≤ _
    omega
  have low : nextFree opts.keepRevnums
    ((logList server session opts.stop).takeWhile fun log => log.revision < opts.start) ≤ s := low
  have large : snapshotInterval ≤ s := by
    have := snapshot.1
    have := snapshot.2
    simp only [snapshotInterval] at *
    omega
  simp only [snapshotInterval] at large
  cases keep : opts.keepRevnums with
  | false =>
    rcases near with same | ⟨few, small⟩
    · omega
    · have := small keep
      omega
  | true =>
    -- the revisions in between are not logged
    rw [keep] at low number_eq
    simp only [if_true] at number_eq
    refine ⟨rfl, keep, by omega, fun log member same => ?_⟩
    by_contra before
    have inside : log ∈ (logList server session opts.stop).takeWhile fun log => log.revision < opts.start := by
      rw [takeWhile_prepared, (preparedCount_split sorted opts.start).1, List.mem_filter]
      simp only [decide_eq_true_eq]
      exact ⟨member, by simp only [planOf] at before; omega⟩
    have := lt_nextFree (sorted.sublist (List.takeWhile_sublist _)) inside
    omega

/-- Whatever fails in an incremental set-up, the storage has taken the logged revisions before. -/
theorem setupIncremental_fails (increasing : Increasing session server) (earlier : SourcesEarlier server) (stop : 0 ≤ opts.stop) :
    Post (fun _ => True)
      (fun e => ∃ n, Course (planOf server session opts true).left (planOf server session opts true).asked early n e.repo)
      (setupIncremental server session opts : Result sys (DumpState sys)) := by
  refine Post.bind (prepareHistory_planOf increasing earlier stop) fun result done => ?_
  have kept : ∀ e : Failure sys, e.repo = result.2 → ∃ n,
      Course (planOf server session opts true).left (planOf server session opts true).asked early n e.repo :=
    fun e same => ⟨_, same ▸ done.course⟩
  refine Post.bind ((post_lift result.2 _).mono (fun _ _ => id) kept) fun base _ => ?_
  exact Post.bind ((post_lift result.2 _).mono (fun _ _ => id) kept) fun last _ => trivial

theorem setupIncremental_round (increasing : Increasing session server) (earlier : SourcesEarlier server)
    (stop : 0 ≤ opts.stop) (positive : 0 < opts.start) (flag : opts.incremental = true) :
    Post (Round server (planOf server session opts true) early)
      (fun e => ∃ n, Course (planOf server session opts true).left (planOf server session opts true).asked early n e.repo)
      (setupIncremental server session opts : Result sys (DumpState sys)) := by
  refine (setupIncremental_fails increasing earlier stop).mono (fun st ran _ => ?_) fun _ => id
  obtain ⟨base, last, repo, ran, found, -, delta, opts', logs, fetched, -, localRev, listIdx, -⟩ := setupIncremental_ok ran
  have done : Prepared (planOf server session opts true) early
      ((logList server session opts.stop).takeWhile fun log => log.revision < opts.start) repo :=
    (prepareHistory_planOf increasing earlier stop).of_ok ran
  obtain ⟨near, nonneg⟩ := nextFree_prepared increasing found localRev rfl
  obtain ⟨valid, listed⟩ := logAt_eq_ok found
  have base_eq : (planOf server session opts true).base = base.revision := planOf_base found
  have sorted := increasing.logList stop
  have dry : st.opts.initialDryRun = true := by rw [opts']
  refine ⟨⟨?_, ?_, ?_, ?_, ?_, ?_⟩, fetched, by rw [opts']; rfl, ?_, ?_, ?_, .inl rfl⟩
  · intro growing
    simp [fetched] at growing
  · intro _
    rw [logs]
    exact sorted
  · intro _ plain
    rw [opts'] at plain
    rw [localRev, listIdx, show opts.keepRevnums = false from plain]
    simp
  · intro _
    refine ⟨_, base, by rw [logs]; exact listed, by rw [opts'], ?_⟩
    rw [dry, if_pos rfl, listIdx]
    omega
  · intro _ keep
    rw [opts'] at keep ⊢
    rw [localRev, show opts.keepRevnums = true from keep]
    rfl
  · intro untrusted
    have sub : session.prefixPath.length > 0 := by
      by_contra root
      refine untrusted ⟨by simpa [planOf] using root, .inr ?_⟩
      rw [opts']
      exact flag
    have many := preparedCount_pos server opts.stop sub positive
    have index : 1 ≤ baseIndex session (logList server session opts.stop) opts.start := by
      unfold baseIndex
      split <;> omega
    rw [localRev]
    split
    · have := List.pairwise_iff_getElem.mp sorted
      obtain ⟨low, low_eq⟩ := List.getElem?_eq_some_iff.mp (logList_head server opts.stop sub)
      obtain ⟨high, high_eq⟩ := List.getElem?_eq_some_iff.mp listed
      have later := this 0 _ low high (by omega)
      rw [low_eq, high_eq] at later
      exact later
    · exact index
  · intro _
    rw [opts', logs]
    exact ⟨base_eq.symm, rfl⟩
  · -- the numbers up to the base are passed
    rw [dry, if_pos rfl, delta]
    exact done.pass_base increasing stop found localRev
  · intro _
    rw [delta]
    simp only
    have head : repo.repo.head + 1 = nextFree opts.keepRevnums
        ((logList server session opts.stop).takeWhile fun log => log.revision < opts.start) ∨ repo.repo.head = 0 :=
      done.head.imp id And.right
    refine ⟨fun large _ keep => ?_, by omega⟩
    simp only [snapshotInterval] at large
    rw [show opts.keepRevnums = true from keep, if_pos rfl] at localRev
    left
    rw [base_eq]
    omega

theorem setupFull_round (valid : 0 ≤ opts.start) (positive : session.prefixPath.length > 0 → opts.start ≠ 0)
    (wet : opts.initialDryRun = false) (untrusted : 1 < opts.start → ¬ trustsLog session opts)
    (covered : early ∨ StartCovered server opts ∧ ∀ source target, (server.diff source target true).children.AddsOnly) :
    Round server (planOf server session opts false) early (setupFull server session opts : DumpState sys) := by
  rw [setupFull_fields server session positive]
  have first : Course (planOf server session opts false).left (planOf server session opts false).asked early
      (if opts.start = 0 then 0 else 1) (emptyDelta : DeltaState sys).repo := by
    split
    · exact .create
    · refine Course.create.pass (by decide) fun s snapshot low high => ?_
      have := snapshot.1
      omega
  refine ⟨⟨?_, ?_, ?_, ?_, ?_, ?_⟩, rfl, rfl, ?_, ?_, ?_, ?_⟩
  · intro _
    refine ⟨?_, wet⟩
    simp only [initialLogs]
    split
    · next sub =>
      rw [if_neg (positive sub)]
      decide
    · split <;> decide
  · exact fun wrong => absurd wrong Bool.false_ne_true
  · exact fun wrong => absurd wrong Bool.false_ne_true
  · exact fun wrong => absurd wrong Bool.false_ne_true
  · exact fun wrong => absurd wrong Bool.false_ne_true
  · intro untrusted
    simp only
    split
    · next zero =>
      refine absurd ⟨?_, .inl zero⟩ untrusted
      by_contra sub
      exact positive (Nat.pos_of_ne_zero sub) zero
    · exact Int.le_refl 1
  · exact fun wrong => absurd wrong Bool.false_ne_true
  · simp only [wet, Bool.false_eq_true, if_false]
    exact first
  · intro dry
    simp [wet] at dry
  · exact .inr (.inl ⟨rfl, rfl, wet, valid, rfl, rfl, untrusted, covered⟩)

/-- A dump always ends, if only with an error. -/
theorem dump_ends (increasing : Increasing session server) (changed : LastChanged server)
    (wet : opts.initialDryRun = false) (valid : 0 ≤ opts.start) :
    ∃ result : Result sys (DumpState sys), dump server session opts = some result := by
  cases setup : (dumpSetup server session opts : Result sys (DumpState sys)) with
  | error e => exact ⟨.error e, by simp [dump, setup]⟩
  | ok st =>
    obtain ⟨range, adjusted, -, whole⟩ := dumpSetup_ok setup
    obtain ⟨created, shape, -⟩ := adjustRange_ok increasing changed adjusted
    rw [formatted_stop] at created
    cases mid : startMid opts with
    | true =>
      obtain ⟨result, ran, -⟩ := incremental_headers increasing changed mid created
      exact ⟨result, ran⟩
    | false =>
      have positive := adjustRange_positive increasing adjusted
      have nonneg := adjustRange_nonneg increasing adjusted (by simpa using valid)
      have pending := @setupFull_pending sys _ _ increasing _ nonneg positive (changed.logged _ _ created)
      have st_eq := whole mid
      rw [← st_eq] at pending
      have fields := @setupFull_fields sys server session _ positive
      rw [← st_eq] at fields
      have wet' : st.opts.initialDryRun = false := by
        rw [fields, shape]
        simp [wet]
      simp only [dump, setup]
      by_cases some_left : (server.logs.filter fun log =>
          range.start ≤ log.revision ∧ log.revision ≤ range.stop) = []
      · rw [some_left] at pending
        rw [dumpLoop]
        cases ran : dumpStep server session st with
        | error e => exact ⟨.error e, rfl⟩
        | ok st' =>
          -- the log is searched backwards, and the loop is left after one round
          obtain ⟨log, opened, opens, control, -, -, -, globalRev, -⟩ := dumpStep_control ran
          have single : st.logsFetched = false := by rw [fields]
          have reached := (pending.empty single opens).1
          have stop : st'.opts.stop = st.opts.stop := control_field control DumpOptions.stop fun _ => rfl
          refine ⟨.ok st', ?_⟩
          simp only
          rw [if_neg (by omega)]
      · obtain ⟨result, looped, -⟩ := pending.loop session some_left
          (Nat.le_succ_of_le (List.length_filter_le _ _)) wet'
        exact ⟨result, looped⟩

theorem dumpSetup_round (increasing : Increasing session server) (changed : LastChanged server)
    (earlier : SourcesEarlier server) (wet : opts.initialDryRun = false) (valid : 0 ≤ opts.start)
    (covered : ∀ range, adjustRange server session opts.formatted = .ok range → startMid opts = false →
      early ∨ StartCovered server range ∧ ∀ source target, (server.diff source target true).children.AddsOnly)
    {plan : Plan} (plan_eq : ∀ range, adjustRange server session opts.formatted = .ok range →
      plan = planOf server session range (startMid opts)) :
    Post (Round server plan early) (fun e => ∃ n, Course plan.left plan.asked early n e.repo)
      (dumpSetup server session opts : Result sys (DumpState sys)) := by
  have unused : ∀ e : Failure sys, e.repo = .create → ∃ n, Course plan.left plan.asked early n e.repo := by
    intro e same
    rw [same]
    exact ⟨0, .create⟩
  unfold dumpSetup
  simp only
  refine Post.bind ((post_lift .create _).mono (fun _ _ => id) unused) fun range adjusted => ?_
  refine Post.bind ((post_lift .create _).mono (fun _ _ => id) unused) fun _ _ => ?_
  obtain ⟨created, shape, subdirectory, root⟩ := adjustRange_ok increasing changed adjusted
  rw [formatted_start] at subdirectory root
  have incremental : range.incremental = opts.incremental := by
    rw [shape]
    simp
  have plan_eq := plan_eq range adjusted
  have stop := created_nonneg increasing changed created
  cases mid : startMid opts with
  | true =>
    have nonzero : opts.start ≠ 0 := fun zero => by simp [startMid, zero] at mid
    have same := root fun both => nonzero both.1
    rw [mid] at plan_eq
    rw [plan_eq]
    refine setupIncremental_round increasing earlier stop (by omega) ?_
    rw [incremental]
    simp only [startMid, Bool.and_eq_true] at mid
    exact mid.1
  | false =>
    rw [mid] at plan_eq
    rw [plan_eq]
    refine setupFull_round (adjustRange_nonneg increasing adjusted (by simpa using valid))
      (adjustRange_positive increasing adjusted) ?_ ?_ (covered range adjusted mid)
    · rw [shape]
      simpa using wet
    · rintro late ⟨top, zero | flag⟩
      · omega
      · have same := root fun both => by have := both.2; omega
        rw [incremental] at flag
        simp only [startMid, flag, Bool.true_and, decide_eq_false_iff_not, not_not] at mid
        omega

/-- The calls of a dump follow the course of its plan. -/
theorem dump_course (increasing : Increasing session server) (changed : LastChanged server)
    (earlier : SourcesEarlier server) (wet : opts.initialDryRun = false) (valid : 0 ≤ opts.start)
    (covered : ∀ range, adjustRange server session opts.formatted = .ok range → startMid opts = false →
      early ∨ StartCovered server range ∧ ∀ source target, (server.diff source target true).children.AddsOnly)
    {result : Result sys (DumpState sys)} (ran : dump server session opts = some result) :
    ∀ plan, (∀ range, adjustRange server session opts.formatted = .ok range →
        plan = planOf server session range (startMid opts)) →
      Post (fun st => ∃ n, Course plan.left plan.asked early n st.delta.repo)
        (fun e => ∃ n, Course plan.left plan.asked early n e.repo) result := by
  intro plan plan_eq
  have setup := @dumpSetup_round sys _ _ _ _ increasing changed earlier wet valid covered plan plan_eq
  unfold dump at ran
  cases started : (dumpSetup server session opts : Result sys (DumpState sys)) with
  | error e =>
    rw [started] at ran setup
    cases ran
    exact setup
  | ok st =>
    rw [started] at ran setup
    obtain ⟨range, adjusted, -, -⟩ := dumpSetup_ok started
    have plan_eq := plan_eq range adjusted
    have isSession : plan.session = session := by
      rw [plan_eq]
      rfl
    rw [← isSession] at ran
    refine Round.loop setup earlier ?_ ran
    rw [plan_eq]
    exact logList_listed server session range.stop

end Setup

end Rsvndump
