import Rsvndump.Delta.EditedTrees
import Rsvndump.Dump.Calls
import Rsvndump.Dump.CopySource

/-! The trees a dump records for the revisions it prints.

Without --incremental the working tree begins empty and follows the edits. Every
number is committed, those of padding revisions too, so that no snapshot is left
out.
-/

set_option autoImplicit false

namespace Rsvndump

open Library

variable {sys : Platform} {server : Server} {session : Session} {repo : RepoPaths}

/-- What is recorded before the number `n` is committed: the tree of a revision under the number that
was printed for it. -/
structure RecordedTo (session : Session) (repo : RepoPaths) (printed : List (Option Int × Int)) (n : Int)
    (t : TracedRepo sys) (last : Int) (version : Int → CbSet) : Prop where
  tracks : Tracks sys t.repo last version
  snapshots : Snapshots t.repo last
  below : last < n
  gapless : ∀ s, isSnapshot s → last < s → n ≤ s
  trees : ∀ r k, (some r, k) ∈ printed → k ≤ last ∧ treePaths (version k) = subtree session.prefixPath (repo r)

variable {printed printed' : List (Option Int × Int)} {n last : Int} {t : TracedRepo sys} {version : Int → CbSet}

theorem RecordedTo.commit (recorded : RecordedTo session repo printed n t last version)
    (fits : EncodedFits sys (t.commit n).calls)
    (more : ∀ r k, (some r, k) ∈ printed' → (some r, k) ∈ printed ∨
      k = n ∧ treePaths t.repo.tree = subtree session.prefixPath (repo r)) :
    RecordedTo session repo printed' (n + 1) (t.commit n) n (committed version n t.repo.tree) where
  tracks := recorded.tracks.commit recorded.below (fits.commit t.ran)
  snapshots := recorded.snapshots.commit recorded.gapless
  below := by omega
  gapless s _ above := by omega
  trees := by
    intro r k member
    have below := recorded.below
    rcases more r k member with old | ⟨rfl, tree⟩
    · obtain ⟨le, tree⟩ := recorded.trees r k old
      refine ⟨by omega, ?_⟩
      rwa [committed, if_pos (by omega)]
    · refine ⟨Int.le_refl _, ?_⟩
      rwa [committed, if_neg (by omega)]

/-- The trees are recorded as far as an `int` counts what is compressed. -/
def Records (session : Session) (repo : RepoPaths) (printed : List (Option Int × Int)) (n : Int) (t : TracedRepo sys) : Prop :=
  EncodedFits sys t.calls → ∃ last version, RecordedTo session repo printed n t last version

theorem Records.commit (records : Records session repo printed n t)
    (more : ∀ r k, (some r, k) ∈ printed' → (some r, k) ∈ printed ∨
      k = n ∧ treePaths t.repo.tree = subtree session.prefixPath (repo r)) :
    Records session repo printed' (n + 1) (t.commit n) := by
  intro fits
  obtain ⟨last, version, recorded⟩ := records fits.shorter
  exact ⟨_, _, recorded.commit fits more⟩

theorem closed_records (asked : Int → Prop) : Closed (Records session repo printed n : TracedRepo sys → Prop) asked := by
  refine Closed.fitting ⟨?_, ?_, ?_⟩
  · rintro t path ⟨last, version, recorded⟩
    exact ⟨last, version, { recorded with tracks := recorded.tracks.add path }⟩
  · rintro t path ⟨last, version, recorded⟩
    refine ⟨last, version, { recorded with tracks := recorded.tracks.delete path, snapshots := ?_ }⟩
    unfold Snapshots
    rw [delete_db]
    exact recorded.snapshots
  · rintro t t' r found - ⟨last, version, recorded⟩ reached
    obtain ⟨answered, -⟩ := TracedRepo.tree_eq_some.mp reached
    obtain ⟨tree, next, answered', tracks, db, -⟩ := recorded.tracks.query r
    rw [answered, Option.some.injEq, Prod.mk.injEq] at answered'
    rw [← answered'.2] at tracks db
    refine ⟨last, version, { recorded with tracks := tracks, snapshots := ?_ }⟩
    unfold Snapshots
    rw [db]
    exact recorded.snapshots

/-! ## Rounds -/

/-- The edits of the server lead from the paths of one revision to those of another, or from nothing. -/
structure Differences (server : Server) (session : Session) (repo : RepoPaths) : Prop where
  whole : ∀ log ∈ server.logs, ∀ base, 0 ≤ base →
    (server.diff base log.revision true).children.Makes ∅ (subtree session.prefixPath (repo log.revision))
  between : ∀ log ∈ server.logs, ∀ base, 0 ≤ base → base ≤ log.revision →
    (server.diff base log.revision false).children.Makes (subtree session.prefixPath (repo base))
      (subtree session.prefixPath (repo log.revision))

/-- What a round begins with: nothing, or the tree of the revision it is compared with. -/
structure Following (server : Server) (session : Session) (repo : RepoPaths) (st : DumpState sys) : Prop where
  single : st.logsFetched = false
  wet : st.opts.initialDryRun = false
  valid : 0 ≤ st.opts.start
  position : st.globalRev = st.opts.start ∧ treePaths st.delta.repo.repo.tree = ∅ ∨
    st.opts.start < st.globalRev ∧ st.globalRev ≤ st.opts.stop ∧
      treePaths st.delta.repo.repo.tree = subtree session.prefixPath (repo (st.globalRev - 1))
  recorded : Records session repo (headers st.out) st.localRev st.delta.repo

variable {st st' opened : DumpState sys} {log : LogRevision}

/-- The edit of a round makes the tree of its revision. -/
theorem Following.makes (following : Following server session repo st) (differences : Differences server session repo)
    (opens : openRevision server st = .ok (log, opened)) :
    (server.diff (diffBase opened) log.revision (opened.globalRev = opened.opts.start)).children.Makes
      (treePaths st.delta.repo.repo.tree) (subtree session.prefixPath (repo log.revision)) := by
  obtain ⟨mid, next, -, control, -⟩ := openRevision_control opens
  have globalRev : opened.globalRev = st.globalRev := by
    rw [control.globalRev, (nextLog_control next).2.2.2.2.1]
  have start : opened.opts.start = st.opts.start :=
    control_field (openRevision_opts opens) DumpOptions.start fun _ => rfl
  have valid := following.valid
  obtain ⟨member, order⟩ := logFetchSingle_ge ((openRevision_logs opens).2 following.single).2
  rcases following.position with ⟨place, empty⟩ | ⟨passed, continues, tree⟩
  · have base : 0 ≤ diffBase opened := by
      unfold diffBase
      simp only
      split <;> split <;> omega
    rw [empty, globalRev, start, place, decide_eq_true rfl]
    exact differences.whole log member _ base
  · have base : diffBase opened = st.globalRev - 1 := by
      unfold diffBase
      rw [globalRev, start]
      simp only
      rw [if_neg (by omega), if_neg (by omega)]
    rw [tree, base, globalRev, start, decide_eq_false (by omega)]
    exact differences.between log member _ (by omega) (by omega)

/-- Padding and the header of a round change no tree. -/
theorem Following.opens (following : Following server session repo st) (opens : openRevision server st = .ok (log, opened)) :
    treePaths opened.delta.repo.repo.tree = treePaths st.delta.repo.repo.tree ∧
      Records session repo (headers st.out) opened.localRev opened.delta.repo := by
  refine @openRevision_repo sys _ _ _ _ (fun n t => treePaths t.repo.tree = treePaths st.delta.repo.repo.tree ∧
    Records session repo (headers st.out) n t) ?_ opens ⟨rfl, following.recorded⟩
  rintro n t ⟨same, records⟩
  exact ⟨by rw [commit_tree]; exact same, records.commit fun r k member => .inl member⟩

/-- A round records the tree of the revision it prints. -/
theorem Following.step (following : Following server session repo st) (differences : Differences server session repo)
    (ran : dumpStep server session st = .ok st') :
    Records session repo (headers st'.out) st'.localRev st'.delta.repo ∧
      treePaths st'.delta.repo.repo.tree = subtree session.prefixPath (repo (st'.globalRev - 1)) := by
  obtain ⟨⟨log, opened⟩, opens, ran⟩ := bind_eq_ok.mp ran
  obtain ⟨edited, edits, ran⟩ := bind_eq_ok.mp ran
  obtain ⟨committed, commits, ran⟩ := bind_eq_ok.mp ran
  obtain ⟨propStore, -, ran⟩ := bind_eq_ok.mp ran
  cases ran
  obtain ⟨delta, edit, returned⟩ := bind_eq_ok.mp edits
  cases returned
  have wet : opened.opts.initialDryRun = false :=
    (control_field (openRevision_opts opens) DumpOptions.initialDryRun fun _ => rfl).trans following.wet
  obtain ⟨mid, next, -, control, number, headers_eq⟩ := openRevision_control opens
  obtain ⟨same, records⟩ := following.opens opens
  have tree := (@runEdit_tree _ (editorBaton session opened log) _ wet _ _ _ (following.makes differences opens) same).of_ok edit
  have kept := (runEdit_post (closed_records _) _ records).of_ok edit
  unfold commitRevision at commits
  simp only [wet, Bool.false_eq_true, if_false] at commits
  cases commits
  refine ⟨kept.commit fun r k member => ?_, ?_⟩
  · -- the new headers are those of the padding and of the revision itself
    rw [headers_append, headers_node, List.append_nil, headers_eq, following.wet] at member
    simp only [Bool.false_eq_true, if_false, roundHeaders, List.mem_append, List.mem_singleton, Prod.mk.injEq] at member
    rcases member with old | pad | ⟨same, place⟩
    · exact .inl old
    · unfold padding at pad
      split at pad <;> simp at pad
    · cases Option.some.inj same
      refine .inr ⟨?_, tree⟩
      rw [number, roundNumber, following.wet, place]
      rfl
  · simp only [Int.add_sub_cancel]
    rw [commit_tree]
    exact tree

theorem Reached.following (increasing : Increasing session server) (differences : Differences server session repo)
    {opts : DumpOptions} (mid : startMid opts = false) (wet : opts.initialDryRun = false) (valid : 0 ≤ opts.start)
    (reached : Reached server session opts st) : Following server session repo st := by
  induction reached with
  | setup ran =>
    obtain ⟨range, adjusted, -, whole⟩ := dumpSetup_ok ran
    have fields := @setupFull_fields sys server session _ (adjustRange_positive increasing adjusted)
    have dry : range.initialDryRun = false := by
      rw [(adjustRange_start adjusted).1]
      simpa using wet
    rw [whole mid, fields]
    refine ⟨rfl, dry, adjustRange_nonneg increasing adjusted (by simpa using valid), .inl ⟨rfl, ?_⟩, fun _ => ⟨-1, fun _ => .empty, ?_⟩⟩
    · exact Set.eq_empty_of_forall_notMem fun x => CbSet.not_mem_empty x
    · refine ⟨tracks_create sys, fun r snapshot le => ?_, ?_, fun s snapshot _ => ?_, fun r k member => ?_⟩
      · have := snapshot.1
        omega
      · simp only
        split <;> omega
      · have := snapshot.1
        simp only
        split <;> omega
      · simp at member
  | @round st st' reached ran continues ih =>
    obtain ⟨recorded, tree⟩ := ih.step differences ran
    obtain ⟨log, opened, opens, control, -, fetched, -, globalRev, -⟩ := dumpStep_control ran
    have start : st'.opts.start = st.opts.start := control_field control DumpOptions.start fun _ => rfl
    have stop : st'.opts.stop = st.opts.stop := control_field control DumpOptions.stop fun _ => rfl
    refine ⟨fetched.trans ih.single, control_field control DumpOptions.initialDryRun fun _ => rfl, by rw [start]; exact ih.valid,
      .inr ⟨?_, continues, tree⟩, recorded⟩
    have valid := ih.valid
    have begun : st.opts.start ≤ st.globalRev := by
      rcases ih.position with ⟨place, -⟩ | ⟨passed, -⟩
      · exact Int.le_of_eq place.symm
      · exact Int.le_of_lt passed
    rw [start, globalRev]
    rw [globalRev, stop] at continues
    obtain ⟨-, head | low | ⟨backwards, le⟩⟩ := logFetchSingle_ge ((openRevision_logs opens).2 ih.single).2 <;> omega

/-- After each round of a dump without --incremental, every revision printed so far is recorded under its number with
the paths it has. -/
theorem dumpStep_records (increasing : Increasing session server) (differences : Differences server session repo)
    {opts : DumpOptions} (mid : startMid opts = false) (wet : opts.initialDryRun = false) (valid : 0 ≤ opts.start)
    (reached : Reached server session opts st) (ran : dumpStep server session st = .ok st')
    (fits : EncodedFits sys st'.delta.repo.calls) {r n : Int} (printed : (some r, n) ∈ headers st'.out) :
    RecordsTree st'.delta.repo n (subtree session.prefixPath (repo r)) := by
  obtain ⟨last, version, recorded⟩ := ((reached.following increasing differences mid wet valid).step differences ran).1 fits
  obtain ⟨le, tree⟩ := recorded.trees r n printed
  refine ⟨version n, recorded.tracks.reconstruct_of_snapshots recorded.snapshots le, fun q _ => ?_⟩
  rw [← tree, mem_treePaths]

end Rsvndump
