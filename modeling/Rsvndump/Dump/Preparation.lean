import Rsvndump.Dump.Coherence
import Rsvndump.Dump.EditedTrees
import Rsvndump.PathRepo.CopiedTrees

/-! The trees stored for the logged revisions.

Before an incremental dump the path storage is filled from the log. Each entry is
applied to the tree of the one before it, and the trees of the copy sources are
looked up among those already stored.
-/

set_option autoImplicit false

namespace Rsvndump

open Library

variable {sys : Platform}

/-! ## Histories -/

/-- The log entries tell how the paths below the session root change, and the sources of copies are there. -/
structure Describes (session : Session) (repo : RepoPaths) (logs : List LogRevision) : Prop where
  sorted : logs.Pairwise fun a b => a.revision < b.revision
  valid : ∀ log ∈ logs, 0 ≤ log.revision
  canonical : ∀ r, ∀ q ∈ repo r, CanonicalPath q
  unborn : ∀ r < 0, repo r = ∅
  turns : ∀ log ∈ logs, ∀ table, log.changedPaths = some table →
    Turns repo table (subtree session.prefixPath (repo (log.revision - 1))) (subtree session.prefixPath (repo log.revision))
  quiet : ∀ r, (∃ log ∈ logs, r ≤ log.revision) → (∀ log ∈ logs, log.revision = r → log.changedPaths = none) →
    subtree session.prefixPath (repo r) = subtree session.prefixPath (repo (r - 1))
  sources : ∀ log ∈ logs, ∀ source original, LoggedSource log source original →
    original < log.revision ∧ (source = [] ∨ source ∈ repo original)

variable {session : Session} {repo : RepoPaths} {logs done rest : List LogRevision} {log : LogRevision}

/-- Nothing changes between two logged revisions. -/
theorem Describes.quiet_between (describes : Describes session repo logs) {a b : Int} (le : a ≤ b)
    (reached : ∃ log ∈ logs, b ≤ log.revision) (none : ∀ log ∈ logs, log.revision ≤ a ∨ b < log.revision) :
    subtree session.prefixPath (repo b) = subtree session.prefixPath (repo a) := by
  obtain ⟨n, rfl⟩ := Int.le.dest le
  induction n with
  | zero => simp
  | succ n ih =>
    obtain ⟨final, member, bound⟩ := reached
    have here := describes.quiet (a + (n + 1 : Nat)) ⟨final, member, bound⟩ fun log inside same => by
      rcases none log inside with low | high <;> omega
    rw [here, show a + ((n + 1 : Nat) : Int) - 1 = a + (n : Int) by omega]
    refine ih (by omega) ⟨final, member, by omega⟩ fun log inside => ?_
    rcases none log inside with low | high
    · exact .inl low
    · exact .inr (by omega)

/-- The number under which the tree of a revision is found once the entries `done` are stored. -/
def placeOf (keep : Bool) (done : List LogRevision) (original : Int) : Int :=
  if keep then original else ((done.map LogRevision.revision).filter (· ≤ original)).length - 1

/-- The number a log entry is stored under. -/
def entryNumber (opts : DumpOptions) (done : List LogRevision) (log : LogRevision) : Int :=
  if opts.keepRevnums then log.revision else done.length

theorem placeOf_lt {opts : DumpOptions} {original : Int} (before : original < log.revision) :
    placeOf opts.keepRevnums done original < entryNumber opts done log := by
  unfold placeOf entryNumber
  cases opts.keepRevnums with
  | true => exact before
  | false =>
    have := List.length_filter_le (· ≤ original) (done.map LogRevision.revision)
    simp only [List.length_map] at this
    simp only [Bool.false_eq_true, if_false]
    omega

theorem placeOf_snoc_before {keep : Bool} {original : Int} (before : original < log.revision) :
    placeOf keep (done ++ [log]) original = placeOf keep done original := by
  simp [placeOf, Int.not_le.mpr before]

theorem placeOf_all {original : Int} (all : ∀ log ∈ done, log.revision ≤ original) :
    placeOf false done original = done.length - 1 := by
  simp [placeOf, revisions_upTo all]

/-- The search looks at all that is stored. -/
theorem copyfromRev_eq_placeOf {opts : DumpOptions} {original : Int}
    (sorted : (done ++ log :: rest).Pairwise fun a b => a.revision < b.revision) (before : original < log.revision) :
    deltaGetLocalCopyfromRev original opts (done ++ log :: rest) = placeOf opts.keepRevnums done original := by
  obtain ⟨front, back, -⟩ := List.pairwise_append.mp sorted
  have above : ∀ log' ∈ log :: rest, original < log'.revision := by
    intro log' member
    rcases List.mem_cons.mp member with rfl | later
    · exact before
    · have := (List.pairwise_cons.mp back).1 log' later
      omega
  unfold deltaGetLocalCopyfromRev placeOf
  split
  · rfl
  · rw [copyfromLoop_append above (by simp) (by simp), copyfromLoop_count original front]

/-! ## Runs -/

variable {opts : DumpOptions} {t : TracedRepo sys} {version : Int → CbSet}

/-- The entries `done` are stored; every number below the next one answers with the tree of its revision. -/
structure Replayed (session : Session) (opts : DumpOptions) (repo : RepoPaths) (logs done rest : List LogRevision)
    (t : TracedRepo sys) (version : Int → CbSet) : Prop where
  filled : Filled t (nextFree opts.keepRevnums done - 1) (nextFree opts.keepRevnums done) version
  settled : version (nextFree opts.keepRevnums done - 1) = t.repo.tree
  answers : ∀ original, (∃ log ∈ logs, original ≤ log.revision) → (∀ log ∈ rest, original < log.revision) →
    Agrees (version (placeOf opts.keepRevnums done original)) (subtree session.prefixPath (repo original))

theorem replayed_create (describes : Describes session repo logs) :
    Replayed session opts repo logs [] logs (.create : TracedRepo sys) fun _ => .empty := by
  have free : nextFree opts.keepRevnums [] = 0 := by
    unfold nextFree
    cases opts.keepRevnums <;> rfl
  refine ⟨by rw [free]; exact filled_create, rfl, fun original reached before q _ => ?_⟩
  have empty : subtree session.prefixPath (repo original) = ∅ := by
    by_cases negative : original < 0
    · rw [describes.unborn original negative]
      exact Set.eq_empty_of_forall_notMem fun q member => member.2
    · rw [describes.quiet_between (a := -1) (by omega) reached fun log member => .inr (before log member),
        describes.unborn (-1) (by decide)]
      exact Set.eq_empty_of_forall_notMem fun q member => member.2
  simp [empty]

/-- A snapshot may be left out only while the working tree is empty, and every round is kept. -/
structure EntryKept (listing : CString → Int → RemoteNode) (session : Session) (opts : DumpOptions)
    (logs done : List LogRevision) (t : TracedRepo sys) (log : LogRevision) : Prop where
  rounds : RoundsKept listing session opts logs t log
  snapshots : ∀ s, isSnapshot s → t.repo.head < s → s < entryNumber opts done log → ∀ x, x ∉ t.repo.tree

theorem nextFree_le_entryNumber (sorted : (done ++ log :: rest).Pairwise fun a b => a.revision < b.revision)
    (nonneg : 0 ≤ log.revision) : nextFree opts.keepRevnums done ≤ entryNumber opts done log := by
  unfold entryNumber
  cases opts.keepRevnums with
  | true => exact nextFree_le sorted nonneg
  | false => exact Int.le_refl _

theorem Replayed.pass (replayed : Replayed session opts repo logs done (log :: rest) t version)
    (le : nextFree opts.keepRevnums done ≤ entryNumber opts done log)
    (snapshots : ∀ s, isSnapshot s → t.repo.head < s → s < entryNumber opts done log → ∀ x, x ∉ t.repo.tree) :
    Filled t (nextFree opts.keepRevnums done - 1) (entryNumber opts done log) version := by
  refine replayed.filled.pass le fun s snapshot low high => ?_
  rw [replayed.settled]
  have positive := snapshot.1
  have head := replayed.filled.tracks.head
  have empty := snapshots s snapshot (by omega) high
  exact CbSet.ext fun x => ⟨fun inside => absurd inside (empty x), fun inside => absurd inside (CbSet.not_mem_empty x)⟩

/-- The working tree is that of the revision before the next entry. -/
theorem Replayed.current (replayed : Replayed session opts repo logs done (log :: rest) t version)
    (sorted : (done ++ log :: rest).Pairwise fun a b => a.revision < b.revision) (nonneg : 0 ≤ log.revision)
    (member : log ∈ logs) : Agrees t.repo.tree (subtree session.prefixPath (repo (log.revision - 1))) := by
  obtain ⟨-, back, across⟩ := List.pairwise_append.mp sorted
  have answers := replayed.answers (log.revision - 1) ⟨log, member, by omega⟩ fun log' inside => by
    rcases List.mem_cons.mp inside with rfl | later
    · omega
    · have := (List.pairwise_cons.mp back).1 log' later
      omega
  have same : version (placeOf opts.keepRevnums done (log.revision - 1)) = t.repo.tree := by
    rw [← replayed.settled]
    cases keep : opts.keepRevnums with
    | true =>
      have frozen := replayed.filled.tracks.frozen (log.revision - 1)
      rw [keep] at frozen
      have le := nextFree_le sorted nonneg
      exact frozen (by omega)
    | false =>
      rw [placeOf_all fun log' inside => by have := across log' inside log List.mem_cons_self; omega]
      rfl
  rwa [same] at answers

variable {listing : CString → Int → RemoteNode}

/-- The server lists whatever is copied from outside of the session. -/
def ListsLogged (listing : CString → Int → RemoteNode) (session : Session) (repo : RepoPaths) (logs : List LogRevision) : Prop :=
  ∀ log ∈ logs, ∀ table path info, log.changedPaths = some table → table.lookup path = some info →
    ListsOutside listing session repo path info log.revision

theorem Replayed.step (describes : Describes session repo logs) (lists : ListsLogged listing session repo logs)
    (split : logs = done ++ log :: rest) (replayed : Replayed session opts repo logs done (log :: rest) t version)
    (kept : EntryKept listing session opts logs done t log) :
    Post (fun t' => EncodedFits sys t'.calls → ∃ version', Replayed session opts repo logs (done ++ [log]) rest t' version')
      (fun _ => False) (pathRepoCommitLog listing session opts log (entryNumber opts done log) logs t) := by
  have sorted := describes.sorted
  rw [split] at sorted
  have member : log ∈ logs := by
    rw [split]
    simp
  have nonneg := describes.valid log member
  have later : ∀ log' ∈ rest, log.revision < log'.revision :=
    (List.pairwise_cons.mp (List.pairwise_append.mp sorted).2.1).1
  have across : ∀ log' ∈ done, log'.revision < log.revision := fun log' inside =>
    (List.pairwise_append.mp sorted).2.2 log' inside log List.mem_cons_self
  have passed := replayed.pass (nextFree_le_entryNumber sorted nonneg) kept.snapshots
  -- what the entry copies from lies before it and so has been prepared
  have stored : ∀ table path info, log.changedPaths = some table → table.lookup path = some info →
      SourceStored session opts logs repo (entryNumber opts done log) version info := by
    intro table path info entries found source original copies
    obtain ⟨before, present⟩ := describes.sources log member source original ⟨table, path, info, entries, found, copies⟩
    rw [split, copyfromRev_eq_placeOf sorted before]
    refine ⟨placeOf_lt before, replayed.answers original ⟨log, member, by omega⟩ fun log' inside => ?_, present⟩
    rcases List.mem_cons.mp inside with rfl | behind
    · exact before
    · have := later log' behind
      omega
  -- an entry without changes leaves the trees of the session alone
  have still : log.changedPaths = none →
      subtree session.prefixPath (repo log.revision) = subtree session.prefixPath (repo (log.revision - 1)) := by
    intro empty
    refine describes.quiet log.revision ⟨log, member, Int.le_refl _⟩ fun log' inside same => ?_
    rw [split, List.mem_append, List.mem_cons] at inside
    rcases inside with front | rfl | behind
    · have := across log' front
      omega
    · exact empty
    · have := later log' behind
      omega
  refine (pathRepoCommitLog_run passed stored describes.canonical (lists log member) kept.rounds (describes.turns log member)
    still (replayed.current sorted nonneg member)).mono
    (fun t' _ made fits => ⟨committed version (entryNumber opts done log) t'.repo.tree, ?_⟩) fun _ => id
  obtain ⟨agrees, filled⟩ := made
  have free : nextFree opts.keepRevnums (done ++ [log]) = entryNumber opts done log + 1 := nextFree_snoc _ _ _
  refine ⟨?_, ?_, fun original reached before => ?_⟩
  · rw [free, Int.add_sub_cancel]
    exact filled fits
  · rw [free, Int.add_sub_cancel, committed, if_neg (by omega)]
  -- revisions before the entry keep the place they had, the others get the new one
  · by_cases early : original < log.revision
    · rw [placeOf_snoc_before early, committed, if_pos (placeOf_lt early)]
      refine replayed.answers original reached fun log' inside => ?_
      rcases List.mem_cons.mp inside with rfl | behind
      · exact early
      · exact before log' behind
    · have place : ¬ placeOf opts.keepRevnums (done ++ [log]) original < entryNumber opts done log := by
        unfold entryNumber
        cases keep : opts.keepRevnums with
        -- plain numbers count the entries, and no other one lies in between
        | true => simpa [placeOf] using early
        | false =>
          rw [placeOf_all fun log' inside => ?_]
          · simp
          · rcases List.mem_append.mp inside with front | same
            · have := across log' front
              omega
            · rw [List.mem_singleton.mp same]
              omega
      rw [committed, if_neg place, describes.quiet_between (a := log.revision) (by omega) reached fun log' inside => ?_]
      · exact agrees
      · rw [split, List.mem_append, List.mem_cons] at inside
        rcases inside with front | rfl | behind
        · exact .inl (Int.le_of_lt (across log' front))
        · exact .inl (Int.le_refl _)
        · exact .inr (before log' behind)

/-- The states of the path storage in which the preparation comes to an entry. -/
inductive Preparing (listing : CString → Int → RemoteNode) (session : Session) (opts : DumpOptions) (logs : List LogRevision) :
    List LogRevision → TracedRepo sys → Prop
  | start : Preparing listing session opts logs [] .create
  | entry {done rest : List LogRevision} {log : LogRevision} {t t' : TracedRepo sys} :
      Preparing listing session opts logs done t → logs = done ++ log :: rest → log.revision < opts.start →
      pathRepoCommitLog listing session opts log (entryNumber opts done log) logs t = .ok t' →
      Preparing listing session opts logs (done ++ [log]) t'

/-- Every entry that is prepared is kept in the state in which the preparation comes to it. -/
def HistoryKept (sys : Platform) (listing : CString → Int → RemoteNode) (session : Session) (opts : DumpOptions)
    (logs : List LogRevision) : Prop :=
  ∀ done log rest (t : TracedRepo sys), logs = done ++ log :: rest → log.revision < opts.start →
    Preparing listing session opts logs done t → EntryKept listing session opts logs done t log

/-- An `int` counts whatever the preparation compresses. -/
def HistoryFits (sys : Platform) (listing : CString → Int → RemoteNode) (session : Session) (opts : DumpOptions)
    (logs : List LogRevision) : Prop :=
  ∀ done (t : TracedRepo sys), Preparing listing session opts logs done t → EncodedFits sys t.calls

theorem prepareHistory_run {server : Server} (describes : Describes session repo logs)
    (lists : ListsLogged server.listing session repo logs) (kept : HistoryKept sys server.listing session opts logs)
    (fits : HistoryFits sys server.listing session opts logs)
    (split : logs = done ++ rest) (early : ∀ log ∈ done, log.revision < opts.start)
    (preparing : Preparing server.listing session opts logs done t)
    (replayed : Replayed session opts repo logs done rest t version) :
    Post (fun result => ∃ version', Replayed session opts repo logs (logs.takeWhile fun log => log.revision < opts.start)
        (logs.dropWhile fun log => log.revision < opts.start) result.2 version') (fun _ => False)
      (prepareHistory server session opts logs rest done.length t) := by
  have taken : logs.takeWhile (fun log => log.revision < opts.start) =
      done ++ rest.takeWhile fun log => log.revision < opts.start := by
    rw [split]
    exact List.takeWhile_append_of_pos fun log member => by simpa using early log member
  have dropped : logs.dropWhile (fun log => log.revision < opts.start) =
      rest.dropWhile fun log => log.revision < opts.start := by
    rw [split]
    exact List.dropWhile_append_of_pos fun log member => by simpa using early log member
  rw [taken, dropped]
  clear taken dropped
  induction rest generalizing done t version with
  | nil =>
    rw [prepareHistory, List.takeWhile_nil, List.dropWhile_nil, List.append_nil]
    exact ⟨version, replayed⟩
  | cons log rest ih =>
    rw [prepareHistory]
    by_cases before : log.revision < opts.start
    · rw [if_pos before, List.takeWhile_cons_of_pos (by simpa using before), List.dropWhile_cons_of_pos (by simpa using before)]
      have step := replayed.step describes lists split (kept done log rest t split before preparing)
      have unfolded : (if opts.keepRevnums then log.revision else (done.length : Int)) = entryNumber opts done log := rfl
      simp only [unfolded]
      cases ran : pathRepoCommitLog server.listing session opts log (entryNumber opts done log) logs t with
      | error e =>
        rw [ran] at step
        exact step.elim
      | ok t' =>
        rw [ran] at step
        have prepared := preparing.entry split before ran
        obtain ⟨version', next⟩ := step (fits _ _ prepared)
        have tail := @ih (done ++ [log]) t' version' (by rw [split]; simp) (fun log' member => ?_) prepared next
        · rw [List.length_append, List.length_singleton, List.append_assoc, List.singleton_append] at tail
          push_cast at tail
          exact tail
        · rcases List.mem_append.mp member with old | same
          · exact early log' old
          · rw [List.mem_singleton.mp same]
            exact before
    · rw [if_neg before, List.takeWhile_cons_of_neg (by simpa using before), List.dropWhile_cons_of_neg (by simpa using before),
        List.append_nil]
      exact ⟨version, replayed⟩

/-- The number of an entry is the place of its revision. -/
theorem placeOf_entry {more : List LogRevision}
    (sorted : (done ++ log :: more).Pairwise fun a b => a.revision < b.revision) :
    placeOf opts.keepRevnums (done ++ log :: more) log.revision = entryNumber opts done log := by
  obtain ⟨-, back, across⟩ := List.pairwise_append.mp sorted
  have later := (List.pairwise_cons.mp back).1
  unfold placeOf entryNumber
  split
  · rfl
  · have front := revisions_upTo fun log' inside => Int.le_of_lt (across log' inside log List.mem_cons_self)
    have none_left : (more.map LogRevision.revision).filter (· ≤ log.revision) = [] := by
      rw [List.filter_eq_nil_iff]
      intro r member
      obtain ⟨log', inside, rfl⟩ := List.mem_map.mp member
      have := later log' inside
      simp
      omega
    rw [List.map_append, List.filter_append, front, List.map_cons, List.filter_cons_of_pos (by simp), none_left]
    simp

theorem entryNumber_lt_nextFree {more : List LogRevision}
    (sorted : (done ++ log :: more).Pairwise fun a b => a.revision < b.revision) :
    entryNumber opts done log < nextFree opts.keepRevnums (done ++ log :: more) := by
  unfold entryNumber
  cases opts.keepRevnums with
  | true => exact lt_nextFree sorted (by simp)
  | false =>
    simp only [nextFree, List.length_append, List.length_cons, Bool.false_eq_true, if_false]
    exact_mod_cast (by omega : done.length < done.length + (more.length + 1))

/-- The entries prepared so far are all recorded. -/
theorem Replayed.recordsTree (describes : Describes session repo logs)
    (replayed : Replayed session opts repo logs (logs.takeWhile fun log => log.revision < opts.start)
      (logs.dropWhile fun log => log.revision < opts.start) t version)
    (split : logs = done ++ log :: rest) (before : log.revision < opts.start) :
    RecordsTree t (entryNumber opts done log) (subtree session.prefixPath (repo log.revision)) := by
  have sorted := describes.sorted
  have member : log ∈ logs := by
    rw [split]
    simp
  have early : ∀ log' ∈ done, log'.revision < opts.start := by
    intro log' inside
    rw [split] at sorted
    have := (List.pairwise_append.mp sorted).2.2 log' inside log List.mem_cons_self
    omega
  have taken : logs.takeWhile (fun log => log.revision < opts.start) =
      done ++ log :: rest.takeWhile fun log => log.revision < opts.start := by
    rw [split, List.takeWhile_append_of_pos fun log' inside => by simpa using early log' inside,
      List.takeWhile_cons_of_pos (by simpa using before)]
  have prepared := sorted.sublist (List.takeWhile_sublist fun log => decide (log.revision < opts.start))
  rw [taken] at prepared replayed
  have answers := replayed.answers log.revision ⟨log, member, Int.le_refl _⟩ fun log' inside => by
    rw [← List.takeWhile_append_dropWhile (p := fun log => decide (log.revision < opts.start)) (l := logs)] at sorted
    refine (List.pairwise_append.mp sorted).2.2 log ?_ log' inside
    rw [taken]
    simp
  rw [placeOf_entry prepared] at answers
  exact ⟨_, replayed.filled.reconstruct (entryNumber_lt_nextFree prepared), answers⟩

/-- If every entry is kept, the preparation succeeds, and each prepared entry is recorded with the paths of its revision.
These are the paths that a dump without --incremental records for a revision it prints. -/
theorem log_trees_agree {server : Server} (describes : Describes session repo logs)
    (lists : ListsLogged server.listing session repo logs) (kept : HistoryKept sys server.listing session opts logs)
    (fits : HistoryFits sys server.listing session opts logs)
    (increasing : Increasing session server) (differences : Differences server session repo) :
    ∃ n t, prepareHistory server session opts logs logs 0 (.create : TracedRepo sys) = .ok (n, t) ∧
      ∀ done log rest, logs = done ++ log :: rest → log.revision < opts.start →
        RecordsTree t (entryNumber opts done log) (subtree session.prefixPath (repo log.revision)) ∧
        ∀ (full : DumpOptions) (st st' : DumpState sys) (number : Int), startMid full = false → full.initialDryRun = false →
          0 ≤ full.start → Reached server session full st → dumpStep server session st = .ok st' →
          EncodedFits sys st'.delta.repo.calls → (some log.revision, number) ∈ headers st'.out →
          RecordsTree st'.delta.repo number (subtree session.prefixPath (repo log.revision)) := by
  have run := @prepareHistory_run sys session repo logs [] logs opts .create _ server describes lists kept fits rfl (by simp) .start
    (replayed_create describes)
  cases ran : prepareHistory server session opts logs logs 0 (.create : TracedRepo sys) with
  | error e =>
    rw [show ((([] : List LogRevision).length : Nat) : Int) = 0 from rfl, ran] at run
    exact run.elim
  | ok result =>
    rw [show ((([] : List LogRevision).length : Nat) : Int) = 0 from rfl, ran] at run
    obtain ⟨version, replayed⟩ := run
    refine ⟨result.1, result.2, rfl, fun done log rest split before => ⟨?_, ?_⟩⟩
    · exact replayed.recordsTree describes split before
    · intro full st st' number mid wet valid reached ran counted printed
      exact dumpStep_records increasing differences mid wet valid reached ran counted printed

/-! `a` is added in revision 1, and `b` in revision 2 as a copy. -/

def copyLogs (source : CString) : List LogRevision :=
  [plainLog 0 [], plainLog 1 [⟨cstr "a", .add, none⟩], plainLog 2 [⟨cstr "b", .add, some (source, 1)⟩],
    plainLog 3 [⟨cstr "a", .modify, none⟩]]

def copyNames (target : List CString) (r : Int) : List CString :=
  if r < 1 then [] else if r < 2 then [cstr "a"] else cstr "a" :: target

def copyRepo (target : List CString) : RepoPaths := fun r => {q | q ∈ copyNames target r}

@[simp] theorem mem_subtree_root {paths : Set CString} {q : CString} : q ∈ subtree [] paths ↔ q ≠ [] ∧ q ∈ paths := Iff.rfl

/-- A log entry with one changed path. -/
theorem turns_single {entry : (_ : CString) × ChangedPath} {before after : Set CString}
    (change : ∀ q ≠ [], q ∈ Overwrite.apply before (pathChange repo entry.1 entry.2) ↔ q ∈ after) :
    Turns repo [entry].toAList before after := by
  obtain ⟨path, info⟩ := entry
  refine ⟨[path], .refl _, List.pairwise_singleton _ _, fun q visible => ?_⟩
  have own : tableChange repo [⟨path, info⟩].toAList path = pathChange repo path info := by
    unfold tableChange
    rw [AList.lookup_to_alist, List.dlookup_cons_eq]
  rw [List.map_singleton, own]
  exact change q visible

theorem copyLogs_describe {source : CString} {target : List CString}
    (copies : ∀ q, q ∈ copied source (cstr "b") {cstr "a"} ↔ q ∈ target) (canonical : ∀ q ∈ target, CanonicalPath q)
    (present : source = [] ∨ source = cstr "a") : Describes rootSession (copyRepo target) (copyLogs source) where
  sorted := by simp [copyLogs, plainLog]
  valid := by simp [copyLogs, plainLog]
  canonical r q member := by
    have first : CanonicalPath (cstr "a") := ⟨by decide, by decide, by decide⟩
    change q ∈ copyNames target r at member
    unfold copyNames at member
    split at member
    · cases member
    · split at member
      · rwa [List.mem_singleton.mp member]
      · rcases List.mem_cons.mp member with rfl | member
        · exact first
        · exact canonical q member
  unborn r negative := by
    ext q
    simp [copyRepo, copyNames, show r < 1 by omega]
  turns log member table entries := by
    simp only [copyLogs, List.mem_cons, List.not_mem_nil, or_false] at member
    rcases member with rfl | rfl | rfl | rfl <;> cases entries
    · exact ⟨[], .refl _, .nil, fun q _ => by simp [rootSession, copyRepo, copyNames, plainLog]⟩
    · refine turns_single fun q visible => ?_
      rw [mem_apply_pathChange]
      simp [rootSession, copyRepo, copyNames, plainLog, ChangedPath.adds, addedPaths, visible]
    · refine turns_single fun q visible => ?_
      rw [mem_apply_pathChange]
      simp [rootSession, copyRepo, copyNames, plainLog, ChangedPath.adds, ChangedPath.removes, addedPaths, visible, copies, or_comm]
    · refine turns_single fun q visible => ?_
      rw [mem_apply_pathChange]
      simp [rootSession, copyRepo, copyNames, plainLog, ChangedPath.adds, ChangedPath.removes]
  quiet r reached none_logged := by
    simp [copyLogs, plainLog] at reached none_logged
    ext q
    have : r < 0 := by omega
    simp [rootSession, copyRepo, copyNames, show r < 1 by omega, show r - 1 < 1 by omega]
  sources log member source' original logged := by
    simp only [copyLogs, List.mem_cons, List.not_mem_nil, or_false] at member
    rcases member with rfl | rfl | rfl | rfl
    · obtain ⟨entry, listed, -⟩ := plainLog_copy logged
      cases listed
    · obtain ⟨entry, listed, copies⟩ := plainLog_copy logged
      rw [List.mem_singleton.mp listed] at copies
      cases copies
    · obtain ⟨entry, listed, copies⟩ := plainLog_copy logged
      rw [List.mem_singleton.mp listed] at copies
      cases copies
      refine ⟨by simp [plainLog], present.imp_right ?_⟩
      rintro rfl
      simp [copyRepo, copyNames]
    · obtain ⟨entry, listed, copies⟩ := plainLog_copy logged
      rw [List.mem_singleton.mp listed] at copies
      cases copies

def copyServer (source : CString) (target : List CString) : Server :=
  historyServer (copyLogs source) fun base dest empty =>
    addFiles (if empty then copyNames target dest else (copyNames target dest).drop (copyNames target base).length)

theorem addFiles_makes {names : List CString} (distinct : names.Nodup) {before : Set CString}
    (absent : ∀ name ∈ names, name ∉ before) : (addFiles names).Makes before {q | q ∈ names ∨ q ∈ before} := by
  induction names generalizing before with
  | nil =>
    ext q
    simp
  | cons name names ih =>
    obtain ⟨fresh, distinct⟩ := List.nodup_cons.mp distinct
    refine ⟨absent name List.mem_cons_self, ?_⟩
    have rest := @ih distinct (insert name before) fun other member inside => by
      rcases inside with rfl | inside
      · exact fresh member
      · exact absent other (List.mem_cons_of_mem _ member) inside
    have same : {q | q ∈ names ∨ q ∈ insert name before} = {q | q ∈ name :: names ∨ q ∈ before} := by
      ext q
      simp [or_assoc, or_left_comm]
    rw [← same]
    exact rest

theorem copyServer_differences {source : CString} {target : List CString} (distinct : (cstr "a" :: target).Nodup)
    (named : [] ∉ target) : Differences (copyServer source target) rootSession (copyRepo target) := by
  have visible : ∀ r, subtree [] (copyRepo target r) = {q | q ∈ copyNames target r} := by
    intro r
    ext q
    refine ⟨And.right, fun member => ⟨?_, member⟩⟩
    rintro rfl
    change [] ∈ copyNames target r at member
    unfold copyNames at member
    split at member
    · cases member
    · split at member
      · exact absurd member (by decide)
      · exact named ((List.mem_cons.mp member).resolve_left (by decide))
  have nodup : ∀ r, (copyNames target r).Nodup := by
    intro r
    unfold copyNames
    split
    · exact List.nodup_nil
    · split
      · exact List.nodup_singleton _
      · exact distinct
  have grows : ∀ base r, base ≤ r → copyNames target base <+: copyNames target r := by
    intro base r le
    unfold copyNames
    split
    · exact List.nil_prefix
    · split
      · rw [if_neg (by omega)]
        split
        · exact List.prefix_rfl
        · exact ⟨target, rfl⟩
      · rw [if_neg (by omega), if_neg (by omega)]
  constructor
  · intro log _ base _
    rw [show rootSession.prefixPath = [] from rfl, visible]
    have makes := @addFiles_makes _ (nodup log.revision) ∅ fun _ _ => id
    simpa [copyServer, historyServer] using makes
  · intro log _ base _ le
    obtain ⟨more, split⟩ := grows base log.revision le
    rw [show rootSession.prefixPath = [] from rfl, visible, visible]
    have distinct := nodup log.revision
    rw [← split, List.nodup_append] at distinct
    have makes := @addFiles_makes _ distinct.2.1 {q | q ∈ copyNames target base} fun q inside old => distinct.2.2 q old q inside rfl
    have same : {q | q ∈ more ∨ q ∈ {q | q ∈ copyNames target base}} = {q | q ∈ copyNames target log.revision} := by
      ext q
      simp [← split, or_comm]
    rw [same] at makes
    simpa [copyServer, historyServer, ← split] using makes

theorem plainLog_lookup {revision : Int} {changes : List ((_ : CString) × ChangedPath)} {table : AprHash ChangedPath}
    {path : CString} {info : ChangedPath} (entries : (plainLog revision changes).changedPaths = some table)
    (found : table.lookup path = some info) : ⟨path, info⟩ ∈ changes := by
  cases entries
  rw [AList.lookup_to_alist] at found
  exact List.of_mem_dlookup found

def incrementalAt (start : Int) : DumpOptions := { DumpOptions.create with start := start, incremental := true }

theorem copyLogs_kept (listing : CString → Int → RemoteNode) :
    HistoryKept sys listing rootSession (incrementalAt 3) (copyLogs (cstr "a")) := by
  intro done log rest t split before _
  have member : log ∈ copyLogs (cstr "a") := by
    rw [split]
    simp
  have change : ∀ table path info, log.changedPaths = some table → table.lookup path = some info →
      ¬ info.removes ∧ ∀ source original, info.copyfrom = some (source, original) → path = cstr "b" ∧ source = cstr "a" := by
    intro table path info entries found
    simp only [copyLogs, List.mem_cons, List.not_mem_nil, or_false] at member
    rcases member with rfl | rfl | rfl | rfl
    · cases plainLog_lookup entries found
    · cases List.mem_singleton.mp (plainLog_lookup entries found)
      simp [ChangedPath.removes]
    · cases List.mem_singleton.mp (plainLog_lookup entries found)
      refine ⟨by simp [ChangedPath.removes], fun source original copies => ?_⟩
      cases copies
      exact ⟨rfl, rfl⟩
    · cases List.mem_singleton.mp (plainLog_lookup entries found)
      simp [ChangedPath.removes]
  refine ⟨fun table _ path _ mid info entries _ _ found => ?_, fun s snapshot _ below => ?_⟩
  · obtain ⟨stays, copies⟩ := change table path info entries found
    refine ⟨fun removes => absurd removes stays, fun _ source original rel copy reached => ?_⟩
    obtain ⟨rfl, rfl⟩ := copies source original copy
    cases Option.some.inj ((show deltaGetLocalCopyfromPath rootSession.prefixPath (cstr "a") = some (cstr "a") by decide).symm.trans
      reached)
    refine ⟨below_nil _, fun tree _ => ?_⟩
    rw [CopyKept, if_neg (by decide)]
    exact fun root => absurd root (by decide)
  · have length := congrArg List.length split
    simp only [copyLogs, List.length_cons, List.length_nil, List.length_append] at length
    obtain ⟨positive, multiple⟩ := snapshot
    simp only [snapshotInterval, entryNumber, incrementalAt, DumpOptions.create] at multiple below
    simp only [Bool.false_eq_true, if_false] at below
    omega

/-- The preparation runs through the entries it has come past. -/
theorem Preparing.ran {server : Server} (preparing : Preparing server.listing session opts logs done t) (more : List LogRevision) :
    prepareHistory server session opts logs (done ++ more) 0 .create = prepareHistory server session opts logs more done.length t := by
  induction preparing generalizing more with
  | start => rfl
  | @entry done rest log t t' _ _ before ran ih =>
    have number : (if opts.keepRevnums then log.revision else (done.length : Int)) = entryNumber opts done log := rfl
    rw [List.append_assoc, ih, List.singleton_append, prepareHistory, if_pos before]
    simp only [number]
    rw [ran, List.length_append, List.length_singleton]
    push_cast
    rfl

theorem Preparing.isPrefix (preparing : Preparing listing session opts logs done t) : done <+: logs := by
  cases preparing with
  | start => exact List.nil_prefix
  | entry _ split => exact ⟨_, by rw [split, List.append_assoc]; rfl⟩

theorem copyLogs_fit :
    HistoryFits .plain (copyServer (cstr "a") [cstr "b"]).listing rootSession (incrementalAt 3) (copyLogs (cstr "a")) := by
  intro done t preparing
  have ran := preparing.ran []
  obtain ⟨rest, split⟩ := preparing.isPrefix
  have taken : done = (copyLogs (cstr "a")).take done.length := by rw [← split, List.take_left]
  have short : done.length < 5 := by
    have length := congrArg List.length split
    simp only [copyLogs, List.length_append, List.length_cons, List.length_nil] at length
    omega
  rw [List.append_nil, prepareHistory, taken] at ran
  have all : ∀ k < 5, ∀ result ∈ (prepareHistory (copyServer (cstr "a") [cstr "b"]) rootSession (incrementalAt 3)
      (copyLogs (cstr "a")) ((copyLogs (cstr "a")).take k) 0 (.create : TracedRepo .plain)).toOption,
      EncodedFits .plain result.2.calls := by decide
  exact all done.length short _ (by rw [ran]; rfl)

theorem copyServer_increasing (source : CString) (target : List CString) : Increasing rootSession (copyServer source target) := by
  refine ⟨?_, ?_⟩
  · rw [show initialLogs rootSession = [] from rfl]
    simp [copyServer, historyServer, copyLogs, plainLog]
  · simp [copyServer, historyServer, copyLogs, plainLog]

/-- In the repository root nothing is copied from outside. -/
theorem listsLogged_root (listing : CString → Int → RemoteNode) (repo : RepoPaths) (logs : List LogRevision) :
    ListsLogged listing rootSession repo logs := by
  intro log _ table path info _ _ _ source original _ outside
  rw [deltaGetLocalCopyfromPath, if_pos (show rootSession.prefixPath <+: source from List.nil_prefix)] at outside
  cases outside

/-- A file is copied. -/
theorem log_trees_file_copied :
    ∃ n t, prepareHistory (copyServer (cstr "a") [cstr "b"]) rootSession (incrementalAt 3) (copyLogs (cstr "a"))
        (copyLogs (cstr "a")) 0 (.create : TracedRepo .plain) = .ok (n, t) ∧
      RecordsTree t 2 (subtree [] (copyRepo [cstr "b"] 2)) := by
  have copies : ∀ q, q ∈ copied (cstr "a") (cstr "b") {cstr "a"} ↔ q ∈ [cstr "b"] := by
    intro q
    rw [List.mem_singleton]
    refine ⟨?_, .inl⟩
    rintro (same | ⟨rel, ⟨more, inside⟩, -⟩)
    · exact same
    · exact absurd inside (subpath_ne (cstr "a") more)
  have canonical : ∀ q ∈ [cstr "b"], CanonicalPath q := by
    intro q member
    rw [List.mem_singleton.mp member]
    exact ⟨by decide, by decide, by decide⟩
  obtain ⟨n, t, ran, records⟩ := log_trees_agree (copyLogs_describe copies canonical (.inr rfl)) (listsLogged_root _ _ _)
    (copyLogs_kept _) copyLogs_fit (copyServer_increasing _ _) (copyServer_differences (by decide) (by decide))
  exact ⟨n, t, ran, (records [plainLog 0 [], plainLog 1 [⟨cstr "a", .add, none⟩]] _ _ rfl (by decide)).1⟩

/-- The tree stored for a number after the preparation. -/
def preparedTree (server : Server) (session : Session) (opts : DumpOptions) (logs : List LogRevision) (number : Int) : Option CbSet := do
  let result ← (prepareHistory server session opts logs logs 0 (.create : TracedRepo .plain)).toOption
  prReconstruct .plain result.2.repo .empty number

theorem preparedTree_eq_some {server : Server} {number : Int} {tree : CbSet}
    (found : preparedTree server session opts logs number = some tree) :
    ∃ n t, prepareHistory server session opts logs logs 0 (.create : TracedRepo .plain) = .ok (n, t) ∧
      prReconstruct .plain t.repo .empty number = some tree := by
  obtain ⟨result, ran, found⟩ := Option.bind_eq_some_iff.mp found
  exact ⟨result.1, result.2, toOption_eq_some.mp ran, found⟩

/-- The repository root, with `a` as its only entry, is copied; what is below `b` is lost. -/
theorem log_trees_root_copied :
    Describes rootSession (copyRepo [cstr "b", cstr "b/a"]) (copyLogs []) ∧
      ListsLogged (copyServer [] [cstr "b", cstr "b/a"]).listing rootSession (copyRepo [cstr "b", cstr "b/a"]) (copyLogs []) ∧
      ∃ n t, prepareHistory (copyServer [] [cstr "b", cstr "b/a"]) rootSession (incrementalAt 3) (copyLogs []) (copyLogs []) 0
          (.create : TracedRepo .plain) = .ok (n, t) ∧
        ¬ RecordsTree t 2 (subtree [] (copyRepo [cstr "b", cstr "b/a"] 2)) := by
  have copies : ∀ q, q ∈ copied [] (cstr "b") {cstr "a"} ↔ q ∈ [cstr "b", cstr "b/a"] := by
    intro q
    have below : subpath (cstr "b") (cstr "a") = cstr "b/a" := by decide
    constructor
    · rintro (rfl | ⟨rel, ⟨-, rfl⟩, rfl⟩)
      · exact List.mem_cons_self
      · rw [below]
        simp
    · intro member
      rcases List.mem_cons.mp member with rfl | member
      · exact .inl rfl
      · exact .inr ⟨cstr "a", ⟨by decide, rfl⟩, by rw [below, List.mem_singleton.mp member]⟩
  have canonical : ∀ q ∈ [cstr "b", cstr "b/a"], CanonicalPath q := by
    intro q member
    rcases List.mem_cons.mp member with rfl | member
    · exact ⟨by decide, by decide, by decide⟩
    · rw [List.mem_singleton.mp member]
      exact ⟨by decide, by decide, by decide⟩
  obtain ⟨tree, found, missing⟩ := Option.map_eq_some_iff.mp (show
    (preparedTree (copyServer [] [cstr "b", cstr "b/a"]) rootSession (incrementalAt 3) (copyLogs []) 2).map
      (fun tree => decide (cstr "b/a" ∈ tree)) = some false by decide)
  obtain ⟨n, t, ran, rebuilt⟩ := preparedTree_eq_some found
  refine ⟨copyLogs_describe copies canonical (.inl rfl), listsLogged_root _ _ _, n, t, ran, ?_⟩
  rintro ⟨tree', rebuilt', agrees⟩
  cases Option.some.inj (rebuilt.symm.trans rebuilt')
  have there : cstr "b/a" ∈ subtree [] (copyRepo [cstr "b", cstr "b/a"] 2) := ⟨by decide, by simp [copyRepo, copyNames]⟩
  exact of_decide_eq_false missing ((agrees _ (by decide)).mpr there)

end Rsvndump
