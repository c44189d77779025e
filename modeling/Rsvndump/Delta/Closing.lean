import Mathlib.Data.List.Induction
import Mathlib.Data.List.TakeWhile
import Rsvndump.Delta.Properties
import Rsvndump.Delta.Stream
import Rsvndump.Library.PathNames

/-! The deletions that are dumped when an edit is closed (`de_close_edit`).

The table of changed paths is a hash, so its order is not known. A deletion that has
been dumped covers what is below it, and a deletion below one that comes first is
applied before it.
-/

set_option autoImplicit false

namespace Rsvndump

open Library

variable {sys : Platform} {baton : DeBaton}

/-! ## Parents -/

theorem svnPathDirname_eq {front name : CString} (plain : slash ∉ name) : svnPathDirname (front ++ slash :: name) = front := by
  have skipped : ((front ++ slash :: name).reverse.dropWhile (· ≠ slash)) = slash :: front.reverse := by
    rw [List.reverse_append, List.reverse_cons, List.append_assoc, List.dropWhile_append_of_pos, List.singleton_append,
      List.dropWhile_cons_of_neg (by simp)]
    intro c member
    have other : c ≠ slash := fun same => plain (same ▸ List.mem_reverse.mp member)
    simpa using other
  rw [svnPathDirname, skipped]
  simp

theorem svnPathDirname_plain {name : CString} (plain : slash ∉ name) : svnPathDirname name = [] := by
  have skipped : (name.reverse.dropWhile (· ≠ slash)) = [] := by
    rw [List.dropWhile_eq_nil_iff]
    intro c member
    have other : c ≠ slash := fun same => plain (same ▸ List.mem_reverse.mp member)
    simpa using other
  rw [svnPathDirname, skipped]
  rfl

/-- A separator in front of the last one ends a parent of the directory. -/
theorem parent_of_split {front name parent rest : CString} (plain : slash ∉ name)
    (same : front ++ slash :: name = parent ++ slash :: rest) : parent = front ∨ ∃ t, front = parent ++ slash :: t := by
  rcases List.append_eq_append_iff.mp same with ⟨more, split, tail⟩ | ⟨more, split, tail⟩
  · cases more with
    | nil => exact .inl (by simpa using split)
    | cons c more =>
      cases tail
      exact absurd (by simp) plain
  · cases more with
    | nil => exact .inl (by simpa using split.symm)
    | cons c more =>
      cases tail
      exact .inr ⟨more, split⟩

/-- The paths the loop over the parents looks up. -/
theorem mem_parentChain {fuel : Nat} {path : CString} (enough : path.length ≤ fuel) (parent : CString) :
    parent ∈ parentChain fuel path ↔ parent ≠ [] ∧ ∃ t, path = parent ++ slash :: t := by
  induction fuel generalizing path with
  | zero =>
    rw [List.eq_nil_of_length_eq_zero (Nat.le_zero.mp enough)]
    simp [parentChain]
  | succ fuel ih =>
    by_cases split : slash ∈ path
    · obtain ⟨front, name, rfl, plain⟩ := last_slash split
      rw [parentChain, svnPathDirname_eq plain]
      by_cases root : front = []
      · subst root
        simp only [if_true, List.not_mem_nil, false_iff, not_and, not_exists]
        intro some t same
        rcases parent_of_split plain same with wrong | ⟨t', wrong⟩
        · exact some wrong
        · simp at wrong
      · have shorter : front.length ≤ fuel := by
          rw [List.length_append, List.length_cons] at enough
          omega
        rw [if_neg root, List.mem_cons, ih shorter]
        constructor
        · rintro (rfl | ⟨some, t, rfl⟩)
          · exact ⟨root, name, rfl⟩
          · exact ⟨some, t ++ slash :: name, by simp⟩
        · rintro ⟨some, t, same⟩
          exact (parent_of_split plain same).imp_right fun above => ⟨some, above⟩
    · rw [parentChain, svnPathDirname_plain split]
      simp only [if_true, List.not_mem_nil, false_iff, not_and, not_exists]
      rintro - t rfl
      exact split (by simp)

/-! ## Rounds -/

/-- Strictly above a path and not the root. -/
def Above (parent path : CString) : Prop := parent ≠ [] ∧ ∃ t, path = parent ++ slash :: t

/-- Below an ancestor that has been dumped as deleted or as a failed copy. The root is not looked at. -/
def CoveredBy (entries : AprHash DeNode) (path : CString) : Prop :=
  ∃ parent, Above parent path ∧
    ∃ node, entries.lookup parent = some node ∧ (node.action = .delete ∨ node.cpInfo.isFailed = true)

theorem isCovered_iff {st : DeltaState sys} {path : CString} : isCovered st path = true ↔ CoveredBy st.dumpedEntries path := by
  simp only [isCovered, List.any_eq_true, mem_parentChain (Nat.le_refl _), CoveredBy, Above]
  refine exists_congr fun parent => and_congr_right fun _ => ?_
  cases st.dumpedEntries.lookup parent with
  | none => simp
  | some node => simp

/-- Neither dumped nor covered by what has been dumped. -/
def Open (entries : AprHash DeNode) (path : CString) : Prop := entries.lookup path = none ∧ ¬ CoveredBy entries path

theorem unlinkLocal_dumped (st : DeltaState sys) (path : CString) :
    (unlinkLocal st path).dumpedEntries = st.dumpedEntries := by
  unfold unlinkLocal
  split <;> rfl

/-- `path` is dumped as deleted in the step. -/
def DumpsDeleted (baton : DeBaton) (path : CString) (st st' : DeltaState sys) : Prop :=
  st'.out = st.out ++ [deleteRecord baton path] ∧
    ∃ own : DeNode, own.action = .delete ∧ st'.dumpedEntries = st.dumpedEntries.insert path own

/-- Nothing is dumped in the step. -/
def DumpsNothing (st st' : DeltaState sys) : Prop := st'.out = st.out ∧ st'.dumpedEntries = st.dumpedEntries

theorem deltaDumpNode_deleted (wet : baton.opts.initialDryRun = false) (path : CString) (st : DeltaState sys) :
    ∃ node st', deltaDumpNode baton [] { deltaCreateNodeNoParent path .none .delete with dumpNeeded := true } st =
      .ok (node, st') ∧ DumpsDeleted baton path st st' := by
  unfold deltaDumpNode dumpNodeWith
  rw [if_neg (by simp [isSkipped, wet, deltaCreateNodeNoParent])]
  exact ⟨_, _, rfl, rfl, _, rfl, rfl⟩

theorem deltaDumpNode_dry (dry : baton.opts.initialDryRun = true) (node : DeNode) (st : DeltaState sys) :
    deltaDumpNode baton [] node st = .ok ({ node with dumpNeeded := false }, st) := by
  unfold deltaDumpNode dumpNodeWith
  rw [if_pos (by simp [isSkipped, dry])]

/-- What a round does when the first revision needs no check. -/
theorem closeEntry_round (early : baton.opts.start ≤ 1) (entry : (_ : CString) × ChangedPath) (st : DeltaState sys) :
    ∃ st', closeEntry baton st entry = .ok st' ∧
      ((entry.2.action = .delete ∧ Open st.dumpedEntries entry.1 ∧ baton.opts.initialDryRun = false) ∧
          DumpsDeleted baton entry.1 st st' ∨
        ¬ (entry.2.action = .delete ∧ Open st.dumpedEntries entry.1 ∧ baton.opts.initialDryRun = false) ∧
          DumpsNothing st st') := by
  have unlinked : DumpsNothing st (unlinkLocal st entry.1) := ⟨unlinkLocal_out st _, unlinkLocal_dumped st _⟩
  have late : ¬ (baton.opts.start > 1 ∧ baton.logRevision.revision = baton.opts.start) := fun both => by omega
  by_cases deleted : entry.2.action = .delete
  · by_cases dumped : ((unlinkLocal st entry.1).dumpedEntries.lookup entry.1).isSome = true
    · refine ⟨_, by rw [closeEntry, if_neg (not_not_intro deleted)]; simp only [dumped, if_true], .inr ⟨?_, unlinked⟩⟩
      rintro ⟨-, ⟨missing, -⟩, -⟩
      rw [unlinked.2, missing] at dumped
      cases dumped
    have missing : st.dumpedEntries.lookup entry.1 = none := by rwa [unlinked.2, Option.not_isSome_iff_eq_none] at dumped
    by_cases covered : isCovered (unlinkLocal st entry.1) entry.1 = true
    · refine ⟨unlinkLocal st entry.1, ?_, .inr ⟨?_, unlinked⟩⟩
      · rw [closeEntry, if_neg (not_not_intro deleted)]
        simp only [dumped, covered, if_true]
        rfl
      · rintro ⟨-, ⟨-, uncovered⟩, -⟩
        rw [isCovered_iff, unlinked.2] at covered
        exact uncovered covered
    · have uncovered : ¬ CoveredBy st.dumpedEntries entry.1 := by rwa [isCovered_iff, unlinked.2] at covered
      have dumps : closeEntry baton st entry =
          deltaDumpNode baton [] { deltaCreateNodeNoParent entry.1 .none .delete with dumpNeeded := true }
            (unlinkLocal st entry.1) >>= fun dumped => .ok dumped.2 := by
        rw [closeEntry, if_neg (not_not_intro deleted)]
        simp only [dumped, covered, late]
        rfl
      cases printing : baton.opts.initialDryRun with
      | false =>
        obtain ⟨node, st', ran, out, own, action, entries⟩ := deltaDumpNode_deleted printing entry.1 (unlinkLocal st entry.1)
        refine ⟨st', by rw [dumps, ran]; rfl, .inl ⟨⟨deleted, ⟨missing, uncovered⟩, rfl⟩, ?_, own, action, ?_⟩⟩
        · rw [out, unlinked.1]
        · rw [entries, unlinked.2]
      | true =>
        refine ⟨unlinkLocal st entry.1, by rw [dumps, deltaDumpNode_dry printing]; rfl, .inr ⟨fun all => ?_, unlinked⟩⟩
        cases all.2.2
  · exact ⟨st, by rw [closeEntry, if_pos deleted], .inr ⟨fun all => deleted all.1, rfl, rfl⟩⟩

/-! ## All rounds -/

/-- The table lists the deletion of a path that is open. -/
def OpenDeletion (entries : AprHash DeNode) (order : List ((_ : CString) × ChangedPath)) (path : CString) : Prop :=
  (∃ info, ⟨path, info⟩ ∈ order ∧ info.action = .delete) ∧ Open entries path

/-- After some rounds, `paths` have been dumped as deleted. -/
structure Closes (baton : DeBaton) (st : DeltaState sys) (order : List ((_ : CString) × ChangedPath)) (paths : List CString)
    (st' : DeltaState sys) : Prop where
  out : st'.out = st.out ++ paths.map (deleteRecord baton)
  kept : ∀ q, q ∉ paths → st'.dumpedEntries.lookup q = st.dumpedEntries.lookup q
  marked : ∀ q ∈ paths, ∃ own : DeNode, st'.dumpedEntries.lookup q = some own ∧ own.action = .delete
  listed : ∀ q ∈ paths, OpenDeletion st.dumpedEntries order q
  nodup : paths.Nodup
  apart : paths.Pairwise fun first later => ¬ Above first later
  reached : baton.opts.initialDryRun = false → ∀ q, OpenDeletion st.dumpedEntries order q → ∃ p ∈ paths, p = q ∨ Above p q
  printing : paths ≠ [] → baton.opts.initialDryRun = false

theorem closes_nil (st : DeltaState sys) : Closes baton st [] [] st where
  out := (List.append_nil _).symm
  kept _ _ := rfl
  marked := by simp
  listed := by simp
  nodup := List.nodup_nil
  apart := .nil
  reached := by
    rintro - q ⟨⟨info, wrong, -⟩, -⟩
    cases wrong
  printing := by simp

/-- A path that has not been dumped is open unless something above it has been. -/
theorem Closes.open_iff {st st' : DeltaState sys} {order : List ((_ : CString) × ChangedPath)} {paths : List CString}
    (closes : Closes baton st order paths st') {q : CString} (other : q ∉ paths) :
    Open st'.dumpedEntries q ↔ Open st.dumpedEntries q ∧ ∀ p ∈ paths, ¬ Above p q := by
  have covered : CoveredBy st'.dumpedEntries q ↔ CoveredBy st.dumpedEntries q ∨ ∃ p ∈ paths, Above p q := by
    constructor
    · rintro ⟨parent, above, node, found, covers⟩
      by_cases member : parent ∈ paths
      · exact .inr ⟨parent, member, above⟩
      · exact .inl ⟨parent, above, node, by rw [← closes.kept parent member, found], covers⟩
    · rintro (⟨parent, above, node, found, covers⟩ | ⟨p, member, above⟩)
      · refine ⟨parent, above, node, ?_, covers⟩
        rw [closes.kept parent fun member => ?_, found]
        have missing := (closes.listed parent member).2.1
        rw [found] at missing
        cases missing
      · obtain ⟨own, found, action⟩ := closes.marked p member
        exact ⟨p, above, own, found, .inl action⟩
  rw [Open, Open, closes.kept q other, covered, not_or, ← and_assoc]
  simp only [not_exists, not_and]

theorem Closes.round (early : baton.opts.start ≤ 1) {st mid : DeltaState sys} {order : List ((_ : CString) × ChangedPath)}
    {paths : List CString} (closes : Closes baton st order paths mid) {entry : (_ : CString) × ChangedPath}
    (distinct : ∀ info, ⟨entry.1, info⟩ ∉ order) :
    ∃ paths' st', closeEntry baton mid entry = .ok st' ∧ Closes baton st (order ++ [entry]) (paths ++ paths') st' := by
  obtain ⟨path, info⟩ := entry
  have other : path ∉ paths := by
    intro member
    obtain ⟨⟨info', listed, -⟩, -⟩ := closes.listed path member
    exact distinct info' listed
  have grown : ∀ q, OpenDeletion st.dumpedEntries (order ++ [⟨path, info⟩]) q ↔
      OpenDeletion st.dumpedEntries order q ∨ (q = path ∧ info.action = .delete ∧ Open st.dumpedEntries path) := by
    intro q
    simp only [OpenDeletion, List.mem_append, List.mem_singleton]
    constructor
    · rintro ⟨⟨info', listed | same, deleted⟩, opened⟩
      · exact .inl ⟨⟨info', listed, deleted⟩, opened⟩
      · cases same
        exact .inr ⟨rfl, deleted, opened⟩
    · rintro (⟨⟨info', listed, deleted⟩, opened⟩ | ⟨rfl, deleted, opened⟩)
      · exact ⟨⟨info', .inl listed, deleted⟩, opened⟩
      · exact ⟨⟨info, .inr rfl, deleted⟩, opened⟩
  obtain ⟨st', ran, ⟨⟨deleted, opened, wet⟩, out, own, action, entries⟩ | ⟨quiet, out, entries⟩⟩ :=
    closeEntry_round early ⟨path, info⟩ mid
  -- the round dumps the deletion of its path
  · obtain ⟨before, below⟩ := (closes.open_iff other).mp opened
    refine ⟨[path], st', ran, ?_, ?_, ?_, ?_, ?_, ?_, ?_, fun _ => wet⟩
    · rw [out, closes.out, List.map_append, List.append_assoc]
      rfl
    · intro q outside
      simp only [List.mem_append, List.mem_singleton, not_or] at outside
      rw [entries, AList.lookup_insert_ne outside.2, closes.kept q outside.1]
    · intro q member
      by_cases same : q = path
      · exact ⟨own, by rw [entries, same, AList.lookup_insert], action⟩
      · rw [entries, AList.lookup_insert_ne same]
        exact closes.marked q ((List.mem_append.mp member).resolve_right fun last => same (List.mem_singleton.mp last))
    · intro q member
      rw [grown]
      rcases List.mem_append.mp member with member | member
      · exact .inl (closes.listed q member)
      · exact .inr ⟨List.mem_singleton.mp member, deleted, before⟩
    · rw [List.nodup_append]
      refine ⟨closes.nodup, List.nodup_singleton path, fun p member q last same => ?_⟩
      rw [List.mem_singleton.mp last] at same
      exact other (same ▸ member)
    · rw [List.pairwise_append]
      refine ⟨closes.apart, List.pairwise_singleton _ _, fun p member q last => ?_⟩
      rw [List.mem_singleton.mp last]
      exact below p member
    · intro wet q listed
      rcases (grown q).mp listed with listed | ⟨rfl, -⟩
      · obtain ⟨p, member, above⟩ := closes.reached wet q listed
        exact ⟨p, List.mem_append_left _ member, above⟩
      · exact ⟨q, List.mem_append_right _ (List.mem_singleton.mpr rfl), .inl rfl⟩
  -- the round dumps nothing: its path is no open deletion or is covered by an earlier one
  · refine ⟨[], st', ran, ?_⟩
    rw [List.append_nil]
    refine ⟨out.trans closes.out, fun q => ?_, fun q member => ?_, fun q member => ?_, closes.nodup, closes.apart, ?_,
      closes.printing⟩
    · rw [entries]
      exact closes.kept q
    · rw [entries]
      exact closes.marked q member
    · exact (grown q).mpr (.inl (closes.listed q member))
    · intro wet q listed
      rcases (grown q).mp listed with listed | ⟨rfl, deleted, opened⟩
      · exact closes.reached wet q listed
      · by_contra none
        simp only [not_exists, not_and, not_or] at none
        exact quiet ⟨deleted, (closes.open_iff other).mpr ⟨opened, fun p member => (none p member).2⟩, wet⟩

/-- The rounds that are left get through in every order. -/
theorem Closes.rounds (early : baton.opts.start ≤ 1) {st mid : DeltaState sys} {order : List ((_ : CString) × ChangedPath)}
    {paths : List CString} (closes : Closes baton st order paths mid) {rest : List ((_ : CString) × ChangedPath)}
    (distinct : ((order ++ rest).map Sigma.fst).Nodup) :
    ∃ more st', rest.foldlM (closeEntry baton) mid = .ok st' ∧ Closes baton st (order ++ rest) (paths ++ more) st' := by
  induction rest generalizing order paths mid with
  | nil => exact ⟨[], mid, rfl, by rwa [List.append_nil, List.append_nil]⟩
  | cons entry rest ih =>
    have fresh : ∀ info, ⟨entry.1, info⟩ ∉ order := by
      intro info member
      rw [List.map_append, List.nodup_append] at distinct
      exact distinct.2.2 entry.1 (List.mem_map.mpr ⟨_, member, rfl⟩) entry.1 (by simp) rfl
    obtain ⟨paths', mid', ran, closed⟩ := closes.round early fresh
    obtain ⟨more, st', ran', closed'⟩ := ih closed (by simpa using distinct)
    refine ⟨paths' ++ more, st', by rw [List.foldlM_cons, ran]; exact ran', ?_⟩
    simpa using closed'

/-! ## The loaded paths -/

/-- The paths that are left when those at and below some paths are deleted. -/
def removeBelow (paths loaded : Set CString) : Set CString := {q | q ∈ loaded ∧ ∀ p ∈ paths, ¬ Below p q}

/-- The rounds dump deletions of different paths, each of a path that is still there, and what is left is what is
not at or below any open deletion. -/
def DeletesOpen (baton : DeBaton) (st : DeltaState sys) (order : List ((_ : CString) × ChangedPath)) (loaded : Set CString) :
    Prop :=
  ∃ paths st', order.foldlM (closeEntry baton) st = .ok st' ∧ st'.out = st.out ++ paths.map (deleteRecord baton) ∧
    paths.Nodup ∧ (∀ front p rest, paths = front ++ p :: rest → p ∈ removeBelow {q | q ∈ front} loaded) ∧
    removeBelow {q | q ∈ paths} loaded = removeBelow {q | OpenDeletion st.dumpedEntries order q} loaded

theorem deleteRecord_injective (baton : DeBaton) : Function.Injective (deleteRecord baton) := by
  intro p q same
  have path : printedPath baton p = printedPath baton q := congrArg NodeRecord.path same
  simpa [printedPath] using path

/-- The root is open together with another path. -/
def RootAmong (entries : AprHash DeNode) (order : List ((_ : CString) × ChangedPath)) : Prop :=
  OpenDeletion entries order [] ∧ ∃ q ≠ [], OpenDeletion entries order q

theorem Closes.deletesOpen {st st' : DeltaState sys} {order : List ((_ : CString) × ChangedPath)} {paths : List CString}
    (closes : Closes baton st order paths st') (ran : order.foldlM (closeEntry baton) st = .ok st')
    (wet : baton.opts.initialDryRun = false) (single : ¬ RootAmong st.dumpedEntries order) {loaded : Set CString}
    (present : ∀ q, OpenDeletion st.dumpedEntries order q → q ∈ loaded) : DeletesOpen baton st order loaded := by
  refine ⟨paths, st', ran, closes.out, closes.nodup, fun front p rest split => ?_, ?_⟩
  · have member : p ∈ paths := by simp [split]
    refine ⟨present p (closes.listed p member), fun e earlier below => ?_⟩
    have first : e ∈ paths := by simp [split, show e ∈ front from earlier]
    have apart := closes.apart
    have nodup := closes.nodup
    rw [split, List.pairwise_append] at apart
    rw [split, List.nodup_append] at nodup
    have other : e ≠ p := nodup.2.2 e earlier p List.mem_cons_self
    by_cases root : e = []
    · subst root
      exact single ⟨closes.listed [] first, p, other.symm, closes.listed p member⟩
    · obtain ⟨t, below⟩ := below.exists_rest root other.symm
      exact apart.2.2 e earlier p List.mem_cons_self ⟨root, t, below⟩
  · ext q
    refine and_congr_right fun _ => ⟨fun outside p opened below => ?_, fun outside p member => outside p (closes.listed p member)⟩
    obtain ⟨e, member, rfl | above⟩ := closes.reached wet p opened
    · exact outside e member below
    · obtain ⟨-, t, rfl⟩ := above
      exact outside e member ((below_slash e t).trans below)

/-- In a dry run nothing is deleted. -/
theorem Closes.not_dry {st st' : DeltaState sys} {order : List ((_ : CString) × ChangedPath)} {paths : List CString}
    (closes : Closes baton st order paths st') (ran : order.foldlM (closeEntry baton) st = .ok st')
    {loaded : Set CString} {q : CString} (opened : OpenDeletion st.dumpedEntries order q) (present : q ∈ loaded)
    (deletes : DeletesOpen baton st order loaded) : baton.opts.initialDryRun = false := by
  obtain ⟨paths', st'', ran', out, -, -, left⟩ := deletes
  cases ran.symm.trans ran'
  by_cases some : paths = []
  · rw [closes.out, some, List.append_cancel_left_eq] at out
    rw [List.map_eq_nil_iff.mp out.symm] at left
    have kept : q ∈ removeBelow {p | p ∈ ([] : List CString)} loaded := ⟨present, fun p none _ => absurd none List.not_mem_nil⟩
    rw [left] at kept
    exact absurd (below_refl q) (kept.2 q opened)
  · exact closes.printing some

theorem openDeletion_perm {entries : AprHash DeNode} {order order' : List ((_ : CString) × ChangedPath)} (perm : order.Perm order')
    (q : CString) : OpenDeletion entries order q ↔ OpenDeletion entries order' q := by
  simp only [OpenDeletion, perm.mem_iff]

/-- With the root first, the other deletions come too late. -/
theorem not_deletesOpen_root (early : baton.opts.start ≤ 1) (wet : baton.opts.initialDryRun = false) {st : DeltaState sys}
    {info : ChangedPath} {rest : List ((_ : CString) × ChangedPath)} (deleted : info.action = .delete)
    (distinct : ((⟨[], info⟩ :: rest).map Sigma.fst : List CString).Nodup) {q : CString} (other : q ≠ [])
    (root : Open st.dumpedEntries []) (opened : OpenDeletion st.dumpedEntries (⟨[], info⟩ :: rest) q) (loaded : Set CString) :
    ¬ DeletesOpen baton st (⟨[], info⟩ :: rest) loaded := by
  rintro ⟨paths, st', ran, out, -, present, -⟩
  obtain ⟨first, mid, round, closes⟩ := @Closes.round _ _ early st st [] [] (closes_nil st) ⟨[], info⟩ fun _ => List.not_mem_nil
  obtain ⟨more, st'', rounds, closed⟩ := @Closes.rounds _ _ early st mid _ _ closes rest distinct
  have same : st'' = st' := by
    rw [List.foldlM_cons, round] at ran
    exact Except.ok.inj (rounds.symm.trans ran)
  rw [same] at closed
  have split : paths = first ++ more := by
    apply List.map_injective_iff.mpr (deleteRecord_injective baton)
    rw [← List.append_cancel_left_eq st.out, ← out, closed.out]
    rfl
  -- the first round dumps the root
  obtain ⟨top, member, rfl | above⟩ := closes.reached wet [] ⟨⟨info, by simp, deleted⟩, root⟩
  · obtain ⟨e, found, reaches⟩ := closed.reached wet q opened
    have named : e ≠ [] := by
      rintro rfl
      rcases reaches with same | above
      · exact other same.symm
      · exact above.1 rfl
    have late : e ∈ more := by
      rcases List.mem_append.mp found with early | late
      · obtain ⟨⟨info', listed, -⟩, -⟩ := closes.listed e early
        cases List.mem_singleton.mp listed
        exact absurd rfl named
      · exact late
    obtain ⟨front, tail, rfl⟩ := List.append_of_mem late
    have there := present (first ++ front) e tail (by rw [split, List.append_assoc])
    exact there.2 [] (List.mem_append_left front member) (below_nil e)
  · obtain ⟨-, t, wrong⟩ := above
    simp at wrong

/-- For any table, the deletions that are dumped do not depend on the order unless the root is deleted together with
another path or nothing is printed. -/
theorem closing_deletions_iff (early : baton.opts.start ≤ 1) (st : DeltaState sys) (table : AprHash ChangedPath)
    {loaded : Set CString} (present : ∀ q, OpenDeletion st.dumpedEntries table.entries q → q ∈ loaded) :
    (∀ order, order.Perm table.entries → DeletesOpen baton st order loaded) ↔
      (∀ q, ¬ OpenDeletion st.dumpedEntries table.entries q) ∨
        (baton.opts.initialDryRun = false ∧ ¬ RootAmong st.dumpedEntries table.entries) := by
  have distinct : ∀ order : List ((_ : CString) × ChangedPath), order.Perm table.entries → (order.map Sigma.fst).Nodup :=
    fun order perm => (List.Perm.map Sigma.fst perm).nodup_iff.mpr table.keys_nodup
  have closes : ∀ order : List ((_ : CString) × ChangedPath), order.Perm table.entries →
      ∃ paths st', order.foldlM (closeEntry baton) st = .ok st' ∧ Closes baton st order paths st' := by
    intro order perm
    obtain ⟨paths, st', ran, closed⟩ := @Closes.rounds _ _ early st st [] [] (closes_nil st) order (distinct order perm)
    exact ⟨paths, st', ran, closed⟩
  constructor
  · intro deletes
    by_cases none : ∀ q, ¬ OpenDeletion st.dumpedEntries table.entries q
    · exact .inl none
    obtain ⟨q, opened⟩ := not_forall_not.mp none
    obtain ⟨paths, st', ran, closed⟩ := closes table.entries (.refl _)
    have wet := closed.not_dry ran opened (present q opened) (deletes _ (.refl _))
    refine .inr ⟨wet, ?_⟩
    rintro ⟨⟨⟨info, listed, deleted⟩, root⟩, q', other, opened'⟩
    have perm : (⟨[], info⟩ :: table.entries.erase ⟨[], info⟩).Perm table.entries := (List.perm_cons_erase listed).symm
    exact not_deletesOpen_root early wet deleted (distinct _ perm) other root ((openDeletion_perm perm q').mpr opened') loaded
      (deletes _ perm)
  · intro condition order perm
    obtain ⟨paths, st', ran, closed⟩ := closes order perm
    rcases condition with none | ⟨wet, single⟩
    · have empty : paths = [] := List.eq_nil_iff_forall_not_mem.mpr fun q member =>
        none q ((openDeletion_perm perm q).mp (closed.listed q member))
      subst empty
      refine ⟨[], st', ran, closed.out, List.nodup_nil, fun front p rest split => by simp at split, ?_⟩
      ext q
      refine and_congr_right fun _ => iff_of_true (fun p wrong => absurd wrong List.not_mem_nil) fun p opened => ?_
      exact absurd ((openDeletion_perm perm p).mp opened) (none p)
    · refine closed.deletesOpen ran wet ?_ fun q opened => present q ((openDeletion_perm perm q).mp opened)
      rintro ⟨root, q, other, opened⟩
      exact single ⟨(openDeletion_perm perm []).mp root, q, other, (openDeletion_perm perm q).mp opened⟩

/-- The log lists what is below the root of the session. When its entry is closed, every deletion that is printed is of
a path still there, and what is left does not depend on the order. -/
theorem closing_deletions (early : baton.opts.start ≤ 1) (wet : baton.opts.initialDryRun = false) (st : DeltaState sys)
    (table : AprHash ChangedPath) (rooted : ∀ info, table.lookup [] = some info → info.action ≠ .delete) {loaded : Set CString}
    (present : ∀ q, OpenDeletion st.dumpedEntries table.entries q → q ∈ loaded) :
    ∀ order, order.Perm table.entries → DeletesOpen baton st order loaded := by
  refine (closing_deletions_iff early st table present).mpr (.inr ⟨wet, ?_⟩)
  rintro ⟨⟨⟨info, listed, deleted⟩, -⟩, -⟩
  exact rooted info (AList.mem_lookup_iff.mpr listed) deleted

/-! A log entry that deletes two paths which the editor has not reported. -/

def twoDeletions (first second : CString) : AprHash ChangedPath :=
  AList.insert first ⟨.delete, none⟩ (AList.singleton second ⟨.delete, none⟩)

/-- A directory and a file in it, in both orders. -/
theorem closing_deletions_nested :
    DeletesOpen copyBaton (emptyDelta : DeltaState .plain) [⟨cstr "d", ⟨.delete, none⟩⟩, ⟨cstr "d/f", ⟨.delete, none⟩⟩] Set.univ ∧
      DeletesOpen copyBaton (emptyDelta : DeltaState .plain) [⟨cstr "d/f", ⟨.delete, none⟩⟩, ⟨cstr "d", ⟨.delete, none⟩⟩]
        Set.univ := by
  have kept := @closing_deletions .plain copyBaton (by decide) rfl emptyDelta (twoDeletions (cstr "d") (cstr "d/f"))
    (by decide) Set.univ fun q _ => trivial
  exact ⟨kept _ (by decide), kept _ (by decide)⟩

end Rsvndump
