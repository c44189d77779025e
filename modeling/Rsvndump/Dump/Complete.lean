import Rsvndump.Delta.Emitting
import Rsvndump.Dump.Preparation
import Rsvndump.Dump.TextRuns

/-! Dumps of a whole repository.

Every revision from 0 on is logged and dumped, so that revisions, list indexes and
local numbers are the same. What is printed for a revision is loaded over the
revisions before it.
-/

set_option autoImplicit false

namespace Rsvndump

open Library

variable {sys : Platform} {server : Server} {session : Session} {repo : RepoPaths} {opts : DumpOptions}

/-- The log of a repository whose revisions have the paths `repo`, and the edits between them. Before revision 0 there is
nothing. -/
structure CompleteHistory (server : Server) (repo : RepoPaths) : Prop where
  numbered : ∀ (i : Nat) (log : LogRevision), server.logs[i]? = some log → log.revision = i
  trees : ∀ r, PathTree (repo r)
  unborn : repo (-1) = ∅
  logged : ∀ log ∈ server.logs, ∃ table, log.changedPaths = some table ∧
    Applies repo log.revision table (repo (log.revision - 1)) (repo log.revision)
  first : (server.diff 0 0 true).children.treeEdit.Leads false [] ∅ (repo 0)
  later : ∀ log ∈ server.logs, 0 < log.revision →
    (server.diff (log.revision - 1) log.revision false).children.treeEdit.Leads false [] (repo (log.revision - 1)) (repo log.revision)

/-- The revisions before the next one have been dumped and stored. -/
structure Complete (repo : RepoPaths) (st : DumpState sys) : Prop where
  single : st.logsFetched = false
  wet : st.opts.initialDryRun = false
  start : st.opts.start = 0
  valid : 0 ≤ st.globalRev
  number : st.localRev = st.globalRev
  length : (st.logs.length : Int) = st.globalRev
  numbered : ∀ (i : Nat) (log : LogRevision), st.logs[i]? = some log → log.revision = i
  stop : st.globalRev ≤ st.opts.stop ∨ st.globalRev = 0
  tree : treePaths st.delta.repo.repo.tree = repo (st.globalRev - 1)
  storing : EncodedFits sys st.delta.repo.calls → Storing repo st.globalRev st.delta.repo

/-! ## Numbers -/

theorem numbered_nonneg {logs : List LogRevision} (numbered : ∀ (i : Nat) (log : LogRevision), logs[i]? = some log → log.revision = i)
    {log : LogRevision} (member : log ∈ logs) : 0 ≤ log.revision := by
  obtain ⟨i, bound, rfl⟩ := List.getElem_of_mem member
  rw [numbered i _ (List.getElem?_eq_getElem bound)]
  exact Int.natCast_nonneg i

/-- The revision asked for is the one that is fetched. -/
theorem logFetchSingle_numbered {logs : List LogRevision}
    (numbered : ∀ (i : Nat) (log : LogRevision), logs[i]? = some log → log.revision = i) {r stop : Int} (valid : 0 ≤ r)
    (inside : r ≤ stop ∨ r = 0) {log : LogRevision} (fetched : logFetchSingle logs r stop = .ok log) : log.revision = r := by
  have member := logFetchSingle_mem fetched
  rw [logFetchSingle, orError_eq_ok] at fetched
  unfold svnRaGetLog at fetched
  rw [if_neg (by omega)] at fetched
  split at fetched
  · next le =>
    rw [List.head?_filter, List.find?_eq_some_iff_append] at fetched
    obtain ⟨bounds, front, back, split, skipped⟩ := fetched
    simp only [decide_eq_true_eq] at bounds
    have place : log.revision = (front.length : Int) := numbered front.length log (by simp [split])
    by_contra other
    -- the entry of the revision would have been found before
    have early : r.toNat < front.length := by omega
    have entry := numbered r.toNat front[r.toNat] (by simp [split, List.getElem?_append_left early])
    have passed := skipped front[r.toNat] (List.getElem_mem early)
    simp only [Bool.not_eq_true', decide_eq_false_iff_not] at passed
    omega
  · next backwards =>
    -- the range runs backwards only from revision 0, and holds no other one
    have listed := List.mem_of_head? fetched
    rw [List.mem_reverse, List.mem_filter] at listed
    have bounds := listed.2
    simp only [decide_eq_true_eq] at bounds
    have := numbered_nonneg numbered member
    omega

/-- In a complete list the number of a copy source is its revision. -/
theorem copyfromLoop_numbered {logs : List LogRevision}
    (numbered : ∀ (i : Nat) (log : LogRevision), logs[i]? = some log → log.revision = i) {original : Int} (valid : 0 ≤ original)
    {n : Nat} (known : n ≤ logs.length) (earlier : original < n) : copyfromLoop original logs n = original := by
  induction n with
  | zero => omega
  | succ n ih =>
    have bound : n < logs.length := known
    rw [copyfromLoop, List.getElem?_eq_getElem bound]
    dsimp only
    rw [numbered n _ (List.getElem?_eq_getElem bound)]
    split
    · omega
    · exact ih (Nat.le_of_succ_le known) (by omega)

/-! ## Rounds -/

variable {st st' opened : DumpState sys} {log : LogRevision}

/-- The entry of the next revision is appended, and no number is left out. -/
theorem Complete.opens (complete : Complete repo st) (history : CompleteHistory server repo)
    (opens : openRevision server st = .ok (log, opened)) :
    log ∈ server.logs ∧ log.revision = st.globalRev ∧ opened.delta = st.delta ∧ opened.localRev = st.globalRev ∧
      opened.globalRev = st.globalRev ∧ opened.logs = st.logs ++ [log] := by
  obtain ⟨logs, fetched⟩ := (openRevision_logs opens).2 complete.single
  have revision := logFetchSingle_numbered history.numbered complete.valid complete.stop fetched
  obtain ⟨mid, next, -, control, number, -⟩ := openRevision_control opens
  obtain ⟨opts', localRev, -, delta, globalRev, -⟩ := nextLog_control next
  refine ⟨logFetchSingle_mem fetched, revision, ?_, ?_, control.globalRev.trans globalRev, logs⟩
  · obtain ⟨mid', next', opens⟩ := bind_eq_ok.mp opens
    cases Except.ok.inj (next.symm.trans next')
    obtain ⟨log', -, opens⟩ := bind_eq_ok.mp opens
    cases opens
    have padded : padTo log.revision mid = mid := by
      unfold padTo
      split
      · rw [localRev, complete.number, revision, Int.sub_self]
        rfl
      · rfl
    rw [padded, ← delta]
    unfold printHeader
    split
    · rfl
    · exact (setupPrefix_delta _).1
  · rw [number, roundNumber, if_neg (by simp [complete.wet]), printedNumber, complete.number, revision]
    split <;> omega

theorem Complete.listed (complete : Complete repo st) (history : CompleteHistory server repo)
    (opens : openRevision server st = .ok (log, opened)) (i : Nat) (entry : LogRevision) (found : opened.logs[i]? = some entry) :
    entry.revision = i := by
  obtain ⟨-, revision, -, -, -, logs⟩ := complete.opens history opens
  rw [logs] at found
  rcases Nat.lt_or_ge i st.logs.length with old | new
  · rw [List.getElem?_append_left old] at found
    exact complete.numbered i entry found
  · have last : i = st.logs.length := by
      have bound := (List.getElem?_eq_some_iff.mp found).1
      simp only [List.length_append, List.length_singleton] at bound
      omega
    subst last
    rw [List.getElem?_concat_length] at found
    rw [← Option.some.inj found, revision, complete.length]

theorem Complete.numbers (complete : Complete repo st) (history : CompleteHistory server repo)
    (opens : openRevision server st = .ok (log, opened)) (original : Int) (valid : 0 ≤ original) (earlier : original < log.revision) :
    deltaGetLocalCopyfromRev original opened.opts opened.logs = original := by
  obtain ⟨-, revision, -, -, -, logs⟩ := complete.opens history opens
  have length := complete.length
  rw [deltaGetLocalCopyfromRev]
  split
  · rfl
  · exact copyfromLoop_numbered (complete.listed history opens) valid (by omega) (by simp [logs]; omega)

theorem Complete.whole (complete : Complete repo st) (root : session.prefixPath = [])
    (opens : openRevision server st = .ok (log, opened)) : WholeDump (editorBaton session opened log) where
  root := root
  start := (control_field (openRevision_opts opens) DumpOptions.start fun _ => rfl).trans complete.start
  wet := (control_field (openRevision_opts opens) DumpOptions.initialDryRun fun _ => rfl).trans complete.wet

/-- The edit of a round leads from the revision before to its own. -/
theorem Complete.leads (complete : Complete repo st) (history : CompleteHistory server repo)
    (opens : openRevision server st = .ok (log, opened)) :
    (roundEdit server log opened).children.treeEdit.Leads false [] (repo (log.revision - 1)) (repo log.revision) := by
  obtain ⟨member, revision, -, -, globalRev, -⟩ := complete.opens history opens
  have start : opened.opts.start = 0 :=
    (control_field (openRevision_opts opens) DumpOptions.start fun _ => rfl).trans complete.start
  have valid := complete.valid
  unfold roundEdit diffBase
  rw [globalRev, start, ← revision]
  dsimp only
  -- the first revision is compared with an empty tree
  by_cases first : log.revision = 0
  · rw [first, decide_eq_true rfl]
    have unborn : repo (0 - 1) = ∅ := history.unborn
    rw [unborn]
    exact history.first
  · rw [if_neg (by omega), if_neg (by omega), decide_eq_false first]
    exact history.later log member (by omega)

theorem Complete.sources (history : CompleteHistory server repo) (member : log ∈ server.logs) (source : CString) (original : Int)
    (logged : LoggedSource log source original) : 0 ≤ original ∧ original < log.revision := by
  obtain ⟨table, path, info, entries, found, copies⟩ := logged
  obtain ⟨table', entries', applies⟩ := history.logged log member
  cases Option.some.inj (entries.symm.trans entries')
  obtain ⟨now, applicable⟩ := applies.applicable found
  obtain ⟨-, valid, earlier, -⟩ := applicable.source source original copies
  exact ⟨valid, earlier⟩

/-- A round dumps and stores its revision. -/
theorem Complete.step (complete : Complete repo st) (history : CompleteHistory server repo) (root : session.prefixPath = [])
    (ran : dumpStep server session st = .ok st') (continues : st'.globalRev ≤ st'.opts.stop) : Complete repo st' := by
  obtain ⟨log, opened, opens, control, logs', fetched, -, globalRev', localRev', -⟩ := dumpStep_control ran
  obtain ⟨member, revision, delta, localRev, globalRev, logs⟩ := complete.opens history opens
  have valid := complete.valid
  have whole := complete.whole root opens
  have numbers := complete.numbers history opens
  have next : st'.globalRev = st.globalRev + 1 := by rw [globalRev', revision]
  have number : roundNumber st log.revision = st.globalRev := by
    obtain ⟨mid, -, -, -, number, -⟩ := openRevision_control opens
    exact number.symm.trans localRev
  -- the round: its edit, its commit and the properties, of which only the first two change the storage
  obtain ⟨⟨log', opened'⟩, opens', ran⟩ := bind_eq_ok.mp ran
  cases Except.ok.inj (opens.symm.trans opens')
  obtain ⟨edited, edits, ran⟩ := bind_eq_ok.mp ran
  obtain ⟨committed', commits, ran⟩ := bind_eq_ok.mp ran
  obtain ⟨propStore, -, ran⟩ := bind_eq_ok.mp ran
  cases ran
  obtain ⟨final, edit, returned⟩ := bind_eq_ok.mp edits
  cases returned
  unfold commitRevision at commits
  simp only [show opened.opts.initialDryRun = false from whole.wet, Bool.false_eq_true, if_false] at commits
  cases commits
  have tree : treePaths final.repo.repo.tree = repo log.revision := by
    refine (@runEdit_tree _ (editorBaton session opened log) _ whole.wet _ _ _ (makes_of_leads (complete.leads history opens))
      ?_).of_ok edit
    rw [delta, revision]
    exact complete.tree
  have storing : EncodedFits sys final.repo.calls → Storing repo log.revision final.repo := by
    refine (@runEdit_storing _ (editorBaton session opened log) _ _ _ whole numbers (Complete.sources history member) _ ?_).of_ok edit
    rw [delta, revision]
    exact complete.storing
  refine ⟨fetched.trans complete.single, control_field control DumpOptions.initialDryRun fun _ => rfl,
    (control_field control DumpOptions.start fun _ => rfl).trans complete.start, by omega, ?_, ?_, ?_, .inl continues, ?_, ?_⟩
  · rw [localRev', number, next]
  · have length := complete.length
    rw [logs', logs, List.length_append, List.length_singleton, next]
    push_cast
    omega
  · rw [logs']
    exact complete.listed history opens
  · dsimp only
    rw [commit_tree, Int.add_sub_cancel]
    exact tree
  · dsimp only
    rw [localRev, ← revision]
    intro fits
    obtain ⟨last, version, filled, trees⟩ := storing fits.shorter
    refine ⟨_, _, filled.commit fits, fun r low high => ?_⟩
    rw [committed]
    split
    · exact trees r low ‹_›
    · have same : r = log.revision := by omega
      rw [same]
      exact tree

/-- The range of a dump of the root begins where it is asked to. -/
theorem adjustRange_root (root : session.prefixPath = []) {range : DumpOptions} (adjusted : adjustRange server session opts = .ok range) :
    range = { opts with stop := range.stop } := by
  obtain ⟨stop, -, adjusted⟩ := bind_eq_ok.mp adjusted
  rw [if_neg (by simp [root])] at adjusted
  split at adjusted
  · cases adjusted
  · cases adjusted
    rfl

theorem Reached.complete (history : CompleteHistory server repo) (root : session.prefixPath = []) (start : opts.start = 0)
    (wet : opts.initialDryRun = false) (reached : Reached server session opts st) : Complete repo st := by
  have mid : startMid opts = false := by simp [startMid, start]
  induction reached with
  | @setup st ran =>
    obtain ⟨range, adjusted, -, whole⟩ := dumpSetup_ok ran
    have same := adjustRange_root root adjusted
    have dry : range.initialDryRun = false := by
      rw [same]
      simpa using wet
    have zero : range.start = 0 := by
      rw [same]
      simpa using start
    have shape : st = setupFull server session range := whole mid
    rw [shape, setupFull_fields server session (fun sub => by simp [root] at sub)]
    refine ⟨rfl, dry, zero, by simp [zero], by simp [zero], by simp [initialLogs, root, zero], fun i log found => ?_, .inr zero,
      ?_, ?_⟩
    · simp [initialLogs, root] at found
    · dsimp only
      rw [zero, show repo (0 - 1) = ∅ from history.unborn]
      exact Set.eq_empty_of_forall_notMem fun x => CbSet.not_mem_empty x
    · dsimp only
      rw [zero]
      exact fun _ => ⟨_, _, filled_create, fun r low high => by omega⟩
  | round reached ran continues ih => exact ih.step history root ran continues

/-- What a round of a whole dump prints is loaded over the revisions before it, and ends in the paths of its own, just when
the log fits to what the copies bring. -/
theorem full_dump_replays_iff (history : CompleteHistory server repo) (root : session.prefixPath = []) (start : opts.start = 0)
    (wet : opts.initialDryRun = false) (reached : Reached server session opts st)
    (opens : openRevision server st = .ok (log, opened)) (ran : dumpStep server session st = .ok st')
    {table : AprHash ChangedPath} (entries : log.changedPaths = some table) (fits : EncodedFits sys st.delta.repo.calls) :
    Replays (printedPath (editorBaton session opened log)) repo log.revision st'.delta.out (repo (log.revision - 1))
        (repo log.revision) ↔
      Backed repo table (roundEdit server log opened).children.treeEdit := by
  have complete := reached.complete history root start wet
  obtain ⟨member, revision, delta, -⟩ := complete.opens history opens
  obtain ⟨table', entries', applies⟩ := history.logged log member
  cases Option.some.inj (entries.symm.trans entries')
  obtain ⟨final, edit, kept⟩ := dumpStep_edit opens ran
  have out : st'.delta.out = final.out := by rw [kept]
  rw [out]
  refine runEdit_replays_iff (complete.whole root opens) (complete.numbers history opens) history.trees entries
    (history.trees _) applies (complete.leads history opens) ?_ edit
  rw [delta, revision]
  exact complete.storing fits

/-- Additions that the log lists can always be loaded. -/
theorem Backed.of_additions {table : AprHash ChangedPath} {edit : TreeEdit}
    (additions : ∀ path info, table.lookup path = some info → info.action = .add)
    (listed : ∀ x ∈ edit.added, table.lookup x ≠ none) : Backed repo table edit where
  changed x _ info found changes := by
    rw [additions x info found] at changes
    rcases changes with wrong | wrong <;> cases wrong
  silent x member missing := absurd missing (listed x member)
  deleted d info found deletes := by
    rw [additions d info found] at deletes
    cases deletes

/-! A directory `d` that is copied to `e` in revision 2, and becomes a file in revision 3. -/

def kindLogs : List LogRevision :=
  [plainLog 0 [], plainLog 1 [⟨cstr "d", .add, none⟩], plainLog 2 [⟨cstr "e", .add, some (cstr "d", 1)⟩],
    plainLog 3 [⟨cstr "d", .replace, none⟩]]

def kindNames (r : Int) : List CString := if r < 1 then [] else if r < 2 then [cstr "d"] else [cstr "d", cstr "e"]

def kindRepo : RepoPaths := fun r => {q | q ∈ kindNames r}

def kindChanged : Server := historyServer kindLogs fun _ dest _ =>
  if dest = 1 then .addDirectory (cstr "d") [] .done .done
  else if dest = 2 then .addDirectory (cstr "e") [] .done .done
  else if dest = 3 then .deleteEntry (cstr "d") (.addFile (cstr "d") [] (some fun _ => [120]) .done)
  else .done

theorem kindNames_cases {r : Int} {q : CString} (member : q ∈ kindNames r) : q = cstr "d" ∨ q = cstr "e" := by
  unfold kindNames at member
  split at member
  · cases member
  · split at member
    · exact .inl (List.mem_singleton.mp member)
    · simpa using member

theorem kindRepo_tree (r : Int) : PathTree (kindRepo r) where
  plain q member := by
    rcases kindNames_cases member with rfl | rfl
    · exact ⟨[cstr "d"], by decide, by simp [PlainName]; decide, rfl⟩
    · exact ⟨[cstr "e"], by decide, by simp [PlainName]; decide, rfl⟩
  closed front rest member := by
    have inside : slash ∈ front ++ slash :: rest := by simp
    rcases kindNames_cases member with same | same <;> rw [same] at inside <;> exact absurd inside (by decide)

theorem kindNames_replaced (q : CString) :
    q = cstr "d" ∨ (q = cstr "d" ∨ q = cstr "e") ∧ ¬ Below (cstr "d") q ↔ q = cstr "d" ∨ q = cstr "e" := by
  have apart : ¬ Below (cstr "d") (cstr "e") := by decide
  constructor
  · rintro (same | ⟨member, -⟩)
    · exact .inl same
    · exact member
  · rintro (same | rfl)
    · exact .inl same
    · exact .inr ⟨.inr rfl, apart⟩

/-- The only change of a revision. -/
theorem applies_single {path : CString} {info : ChangedPath} {revision : Int} {before after : Set CString}
    (applicable : Applicable repo revision path info before)
    (change : ∀ q ≠ [], q ∈ Overwrite.apply before (pathChange repo path info) ↔ q ∈ after) :
    Applies repo revision [⟨path, info⟩].toAList before after := by
  have found : ([⟨path, info⟩].toAList : AprHash ChangedPath).lookup path = some info := by
    rw [AList.lookup_to_alist, List.dlookup_cons_eq]
  refine ⟨[path], .refl _, List.pairwise_singleton _ _, fun front x rest info' split entry => ?_, fun q visible => ?_⟩
  · cases front with
    | nil =>
      cases split
      cases Option.some.inj (found.symm.trans entry)
      exact applicable
    | cons y front => simp at split
  · rw [List.map_singleton, tableChange, found]
    exact change q visible

theorem copied_empty {source path q : CString} : q ∈ copied source path {source} ↔ q = path := by
  rw [mem_copied, or_iff_left]
  rintro ⟨rel, some, inside, -⟩
  exact subpath_ne source some inside

theorem kindChanged_complete : CompleteHistory kindChanged kindRepo where
  numbered i log found := by
    match i with
    | 0 | 1 | 2 | 3 => cases found; rfl
    | i + 4 => simp [kindChanged, historyServer, kindLogs] at found
  trees := kindRepo_tree
  unborn := by
    ext q
    simp [kindRepo, kindNames]
  logged log member := by
    have d : PlainPath (cstr "d") := ⟨[cstr "d"], by decide, by decide, rfl⟩
    have e : PlainPath (cstr "e") := ⟨[cstr "e"], by decide, by decide, rfl⟩
    simp only [kindChanged, historyServer, kindLogs, List.mem_cons, List.not_mem_nil, or_false] at member
    rcases member with rfl | rfl | rfl | rfl <;> refine ⟨_, rfl, ?_⟩
    · exact ⟨[], .refl _, .nil, fun front path rest info split => by simp at split,
        fun q _ => by simp [kindRepo, kindNames, plainLog]⟩
    · refine applies_single ⟨.inr d, fun root => absurd root (by decide), fun _ => ?_, by simp, fun _ => .inl (by decide),
        by simp⟩ fun q _ => ?_
      · simp [kindRepo, kindNames, plainLog]
      · rw [mem_apply_pathChange]
        simp [kindRepo, kindNames, plainLog, ChangedPath.adds, addedPaths]
    · refine applies_single ⟨.inr e, fun root => absurd root (by decide), fun _ => ?_, by simp, fun _ => .inl (by decide),
        ?_⟩ fun q _ => ?_
      · simp [kindRepo, kindNames, plainLog]
        decide
      · rintro source original ⟨⟩
        exact ⟨.inl rfl, by simp [plainLog, kindRepo, kindNames]⟩
      · rw [mem_apply_pathChange]
        simp [kindRepo, kindNames, plainLog, ChangedPath.adds, ChangedPath.removes, addedPaths, copied_empty, or_comm]
    · refine applies_single ⟨.inr d, fun root => absurd root (by decide), by simp, fun _ => .inr ?_, fun _ => .inl (by decide),
        by simp⟩ fun q _ => ?_
      · simp [kindRepo, kindNames, plainLog]
      · rw [mem_apply_pathChange]
        simp [kindRepo, kindNames, plainLog, ChangedPath.adds, ChangedPath.removes, addedPaths]
        exact kindNames_replaced q
  first := by
    change (∅ : Set CString) = kindRepo 0
    ext q
    simp [kindRepo, kindNames]
  later log member positive := by
    simp only [kindChanged, historyServer, kindLogs, List.mem_cons, List.not_mem_nil, or_false] at member
    rcases member with rfl | rfl | rfl | rfl
    · cases positive
    · refine ⟨⟨cstr "d", by decide, rfl⟩, ?_, by simp [Drive.treeEdit, TreeEdit.entries], _, rfl, ?_⟩
      · simp [kindRepo, kindNames, plainLog]
      · change insert (cstr "d") (kindRepo 0) = kindRepo 1
        ext q
        simp [kindRepo, kindNames]
    · refine ⟨⟨cstr "e", by decide, rfl⟩, ?_, by simp [Drive.treeEdit, TreeEdit.entries], _, rfl, ?_⟩
      · simp [kindRepo, kindNames, plainLog]
        decide
      · change insert (cstr "e") (kindRepo 1) = kindRepo 2
        ext q
        simp [kindRepo, kindNames, or_comm]
    · refine ⟨rfl, ⟨cstr "d", by decide, rfl⟩, by simp [kindRepo, kindNames, plainLog], ⟨cstr "d", by decide, rfl⟩, ?_,
        by simp [Drive.treeEdit, TreeEdit.entries], _, rfl, ?_⟩
      -- the directory is replaced by a file, so its old entries are gone before it is added
      · exact fun member => member.2 (below_refl _)
      · change insert (cstr "d") {q ∈ kindRepo 2 | ¬ Below (cstr "d") q} = kindRepo 3
        ext q
        simp [kindRepo, kindNames]
        exact kindNames_replaced q

/-- The round of the copy. -/
theorem full_dump_replays_iff_copied : ∃ (log : LogRevision) (st opened st' : DumpState .plain),
    Reached kindChanged rootSession DumpOptions.create st ∧ openRevision kindChanged st = .ok (log, opened) ∧
      dumpStep kindChanged rootSession st = .ok st' ∧
      (st'.delta.out.map fun record => (record.action, record.path, record.copyfrom)) =
        [(.add, cstr "e", some (cstr "d", 1))] ∧
      Replays (printedPath (editorBaton rootSession opened log)) kindRepo 2 st'.delta.out (kindRepo 1) (kindRepo 2) := by
  have reached : ∃ (log : LogRevision) (st opened st' : DumpState .plain),
      Reached kindChanged rootSession DumpOptions.create st ∧ openRevision kindChanged st = .ok (log, opened) ∧
        dumpStep kindChanged rootSession st = .ok st' ∧ log = plainLog 2 [⟨cstr "e", .add, some (cstr "d", 1)⟩] ∧
        EncodedFits .plain st.delta.repo.calls ∧ roundEdit kindChanged log opened = kindChanged.diff 1 2 false ∧
        (st'.delta.out.map fun record => (record.action, record.path, record.copyfrom)) =
          [(.add, cstr "e", some (cstr "d", 1))] :=
    ⟨_, _, _, _, .round (.round (.setup rfl) rfl (by decide)) rfl (by decide), rfl, rfl, rfl, by decide, rfl, by decide⟩
  obtain ⟨log, st, opened, st', reached, opens, ran, rfl, fits, edit, out⟩ := reached
  refine ⟨_, st, opened, st', reached, opens, ran, out, ?_⟩
  refine (full_dump_replays_iff kindChanged_complete rfl rfl rfl reached opens ran rfl fits).mpr ?_
  rw [edit]
  refine .of_additions (fun path info found => ?_) fun x member missing => ?_
  · cases List.mem_singleton.mp (plainLog_lookup (show (plainLog 2 _).changedPaths = some _ from rfl) found)
    rfl
  · cases List.mem_singleton.mp (show x ∈ [cstr "e"] from member)
    cases missing

/-- The editor deletes the directory that has become a file, and so does the replacement of the log. -/
theorem kind_change_deleted_twice : ∃ (log : LogRevision) (st opened st' : DumpState .plain),
    CompleteHistory kindChanged kindRepo ∧ Reached kindChanged rootSession DumpOptions.create st ∧
      openRevision kindChanged st = .ok (log, opened) ∧ dumpStep kindChanged rootSession st = .ok st' ∧ log.revision = 3 ∧
      (st'.delta.out.map fun record => (record.action, record.path)) = [(.delete, cstr "d"), (.delete, cstr "d"), (.add, cstr "d")] ∧
      ∀ after, ¬ Replays (printedPath (editorBaton rootSession opened log)) kindRepo log.revision st'.delta.out
        (kindRepo (log.revision - 1)) after := by
  have reached : ∃ (log : LogRevision) (st opened st' : DumpState .plain),
      Reached kindChanged rootSession DumpOptions.create st ∧ openRevision kindChanged st = .ok (log, opened) ∧
        dumpStep kindChanged rootSession st = .ok st' ∧ log.revision = 3 ∧
        (st'.delta.out.map fun record => (record.action, record.path)) =
          [(.delete, cstr "d"), (.delete, cstr "d"), (.add, cstr "d")] ∧
        printedPath (editorBaton rootSession opened log) (cstr "d") = cstr "d" :=
    ⟨_, _, _, _, .round (.round (.round (.setup rfl) rfl (by decide)) rfl (by decide)) rfl (by decide), rfl, rfl, rfl,
      by decide, rfl⟩
  obtain ⟨log, st, opened, st', reached, opens, ran, revision, out, shown⟩ := reached
  refine ⟨log, st, opened, st', kindChanged_complete, reached, opens, ran, revision, out, fun after replays => ?_⟩
  obtain ⟨first, rest, split, own, out⟩ := List.map_eq_cons_iff.mp out
  obtain ⟨second, rest, rfl, again, -⟩ := List.map_eq_cons_iff.mp out
  rw [Prod.mk.injEq] at own again
  rw [split] at replays
  cases replays with
  | cons deletes replays =>
    obtain ⟨-, rfl⟩ := deletes.present (printedPath_named _) own.1 (own.2.trans shown.symm)
    cases replays with
    | cons deletes _ =>
      obtain ⟨there, -⟩ := deletes.present (printedPath_named _) again.1 (again.2.trans shown.symm)
      exact there.2 (below_refl _)

end Rsvndump
