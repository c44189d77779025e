import Mathlib.Algebra.GroupWithZero.Nat
import Rsvndump.PathRepo.Store

/-! What the path storage holds after a run of calls.

`Tracks` ties the records, the scheduled delta and the working tree to one tree
for each revision number, whatever numbers the caller chooses to commit. A
revision is rebuilt correctly when the snapshot below it is stored, or when
nothing was there to lose; consecutive numbering stores every snapshot.
-/

set_option autoImplicit false

namespace Rsvndump

open Library

/-! ## Encoded deltas -/

def applyEntry (tree : CbSet) (e : PrDeltaEntry) : CbSet :=
  match e.action with
  | .plus => tree.insert e.path
  | .minus => tree.delete e.path

def applyEntries (tree : CbSet) (entries : List PrDeltaEntry) : CbSet := entries.foldl applyEntry tree

@[simp] theorem applyEntries_nil (tree : CbSet) : applyEntries tree [] = tree := rfl

theorem applyEntries_append (tree : CbSet) (first second : List PrDeltaEntry) :
    applyEntries tree (first ++ second) = applyEntries (applyEntries tree first) second :=
  List.foldl_append

theorem applyEntry_byte (tree : CbSet) (e : PrDeltaEntry) :
    (if e.action.byte = PrAction.plus.byte then tree.insert e.path else tree.delete e.path) =
      applyEntry tree e := by
  obtain ⟨action, path⟩ := e
  cases action with
  | plus => rfl
  | minus =>
    have different : PrAction.minus.byte ≠ PrAction.plus.byte := by decide
    simp only [if_neg different, applyEntry]

def entriesLen (entries : List PrDeltaEntry) : Nat := (entries.map fun e => 2 + e.path.length).sum

theorem entriesLen_eq_zero {entries : List PrDeltaEntry} : entriesLen entries = 0 ↔ entries = [] := by
  cases entries with
  | nil => simp [entriesLen]
  | cons e rest => simp [entriesLen]

theorem prDeltaApplyLoop_encode (entries : List PrDeltaEntry) (fuel : Nat) (tree : CbSet)
    (enough : (entries.flatMap encodeEntry).length ≤ fuel) :
    prDeltaApplyLoop fuel tree (entries.flatMap encodeEntry) = applyEntries tree entries := by
  induction entries generalizing fuel tree with
  | nil => cases fuel <;> rfl
  | cons e rest ih =>
    cases fuel with
    | zero => simp [encodeEntry] at enough
    | succ fuel =>
      have tail : (rest.flatMap encodeEntry).length ≤ fuel := by
        simp only [List.flatMap_cons, encodeEntry, List.length_append, List.length_cons] at enough
        omega
      have head : CString.ofBytes (CString.bytes e.path ++ [0] ++ rest.flatMap encodeEntry) = e.path := by
        simp [List.append_assoc]
      have dropped : (CString.bytes e.path ++ [0] ++ rest.flatMap encodeEntry).drop (e.path.length + 1) =
          rest.flatMap encodeEntry := by
        have width : e.path.length + 1 = (CString.bytes e.path ++ [0]).length := by simp
        rw [width, List.drop_left]
      simp only [List.flatMap_cons, encodeEntry, List.cons_append, prDeltaApplyLoop, head, dropped,
        applyEntry_byte]
      exact ih fuel (applyEntry tree e) tail

theorem prDeltaApply_encode (tree : CbSet) (entries : List PrDeltaEntry) :
    prDeltaApply tree (entries.flatMap encodeEntry) = applyEntries tree entries :=
  prDeltaApplyLoop_encode entries _ tree (Nat.le_refl _)

variable (sys : Platform)

theorem mem_applyEntries_plus (paths : List CString) (tree : CbSet) (x : CString) :
    x ∈ applyEntries tree (paths.map fun path => ⟨.plus, path⟩) ↔ x ∈ paths ∨ x ∈ tree := by
  induction paths generalizing tree with
  | nil => simp
  | cons p paths ih =>
    rw [List.map_cons, applyEntries, List.foldl_cons, ← applyEntries, ih]
    simp [applyEntry, or_left_comm, or_assoc]

theorem mem_applyEntries_minus (paths : List CString) (tree : CbSet) (x : CString) :
    x ∈ applyEntries tree (paths.map fun path => ⟨.minus, path⟩) ↔ x ∈ tree ∧ x ∉ paths := by
  induction paths generalizing tree with
  | nil => simp
  | cons p paths ih =>
    rw [List.map_cons, applyEntries, List.foldl_cons, ← applyEntries, ih]
    simp [applyEntry, and_assoc]

theorem mem_prTreeToArray_nil (tree : CbSet) (x : CString) : x ∈ prTreeToArray sys tree [] ↔ x ∈ tree := by
  simp only [prTreeToArray, List.length_nil, true_or, decide_true, List.filter_true]
  constructor
  · exact CbSet.mem_of_mem_walkPrefixed
  · exact fun member => (CbSet.mem_walkPrefixed member List.nil_prefix x).mpr ⟨member, List.nil_prefix⟩

/-- A snapshot gives its tree back when it is applied to an empty one. -/
theorem prDeltaApply_prEncode (tree : CbSet) : prDeltaApply .empty (prEncode sys tree) = tree := by
  have encoded : prEncode sys tree =
      ((prTreeToArray sys tree []).map fun path => (⟨.plus, path⟩ : PrDeltaEntry)).flatMap encodeEntry := by
    rw [prEncode, List.flatMap_map]
  rw [encoded, prDeltaApply_encode]
  apply CbSet.ext
  intro x
  rw [mem_applyEntries_plus, mem_prTreeToArray_nil]
  simp

/-! ## The storage invariant -/

/-- `last` is the last committed number, -1 before the first commit. -/
structure Tracks (repo : PathRepo) (last : Int) (version : Int → CbSet) : Prop where
  bound : -1 ≤ last
  head : repo.head = max last 0
  unborn : ∀ r < 0, version r = .empty
  frozen : ∀ r, last ≤ r → version r = version last
  unwritten : ∀ r, last < r → repo.db r = none
  nonnegative : ∀ r < 0, repo.db r = none
  unchanged : ∀ r, repo.db r = none → version r = version (r - 1)
  record : ∀ r val, repo.db r = some val → ∃ data, sys.uncompress val = some data ∧
    prDeltaApply (if isSnapshot r then .empty else version (r - 1)) data = version r
  pending : repo.deltaLen = entriesLen repo.delta
  working : repo.tree = applyEntries (version last) repo.delta

theorem tracks_create : Tracks sys pathRepoCreate (-1) fun _ => .empty where
  bound := Int.le_refl _
  head := by decide
  unborn _ _ := rfl
  frozen _ _ := rfl
  unwritten _ _ := rfl
  nonnegative _ _ := rfl
  unchanged _ _ := rfl
  record r val found := by simp [pathRepoCreate] at found
  pending := rfl
  working := rfl

variable {sys} {repo : PathRepo} {last : Int} {version : Int → CbSet}

theorem Tracks.add (tracks : Tracks sys repo last version) (path : CString) :
    Tracks sys (pathRepoAdd repo path).1 last version where
  __ := tracks
  pending := by simp [pathRepoAdd, entriesLen, tracks.pending]
  working := by
    simp only [pathRepoAdd, applyEntries_append, ← tracks.working]
    rfl

/-- The loop of `path_repo_delete` appends one entry for each string it removes. -/
theorem foldl_deleteOne (paths : List CString) (repo : PathRepo) :
    paths.foldl deleteOne repo =
      { repo with
          delta := repo.delta ++ paths.map fun path => ⟨.minus, path⟩
          deltaLen := repo.deltaLen + entriesLen (paths.map fun path => ⟨.minus, path⟩)
          tree := applyEntries repo.tree (paths.map fun path => ⟨.minus, path⟩) } := by
  induction paths generalizing repo with
  | nil => simp [entriesLen]
  | cons p paths ih =>
    rw [List.foldl_cons, ih]
    simp [deleteOne, applyEntries, applyEntry, entriesLen, Nat.add_assoc]

theorem Tracks.delete (tracks : Tracks sys repo last version) (path : CString) :
    Tracks sys (pathRepoDelete sys repo path) last version := by
  rw [pathRepoDelete, foldl_deleteOne]
  exact
    { tracks with
      pending := by simp [entriesLen, tracks.pending]
      working := by simp only [applyEntries_append, ← tracks.working] }

/-- The trees after a commit: the working tree from the new number on. -/
def committed (version : Int → CbSet) (revision : Int) (tree : CbSet) (r : Int) : CbSet :=
  if r < revision then version r else tree

theorem Tracks.commit (tracks : Tracks sys repo last version) {revision : Int} (later : last < revision)
    (fits : (commitData sys repo revision).length < 2147483648) :
    Tracks sys (pathRepoCommit sys repo revision) revision (committed version revision repo.tree) := by
  have negative : -1 < revision := by have := tracks.bound; omega
  have before : committed version revision repo.tree (revision - 1) = version last := by
    rw [committed, if_pos (by omega)]
    exact tracks.frozen _ (by omega)
  have other : ∀ r, r ≠ revision → committed version revision repo.tree r =
        committed version revision repo.tree (r - 1) ∨ r < revision := by
    intro r different
    by_cases small : r < revision
    · exact .inr small
    · exact .inl (by rw [committed, committed, if_neg small, if_neg (by omega)])
  unfold pathRepoCommit
  split
  -- an empty delta of a revision that is no snapshot: nothing is written
  · next empty =>
    have nothing : repo.delta = [] := entriesLen_eq_zero.mp (by rw [← tracks.pending]; exact empty.1)
    have still : repo.tree = version last := by rw [tracks.working, nothing, applyEntries_nil]
    have same : committed version revision repo.tree = version := by
      funext r
      rw [committed]
      split
      · rfl
      · rw [still, tracks.frozen r (by omega)]
    rw [same]
    exact
      { tracks with
        bound := by omega
        head := by simp only; omega
        frozen := fun r above => by rw [tracks.frozen r (by omega), tracks.frozen revision (by omega)]
        unwritten := fun r above => tracks.unwritten r (by omega)
        working := by rw [tracks.frozen revision (by omega)]; exact tracks.working }
  · exact
      { bound := by omega
        head := by simp only; omega
        unborn := fun r below => by rw [committed, if_pos (by omega)]; exact tracks.unborn r below
        frozen := fun r above => by rw [committed, committed, if_neg (by omega), if_neg (by omega)]
        unwritten := fun r above => by
          simp only
          rw [Function.update_of_ne (by omega)]
          exact tracks.unwritten r (by omega)
        nonnegative := fun r below => by
          simp only
          rw [Function.update_of_ne (by omega)]
          exact tracks.nonnegative r below
        unchanged := fun r missing => by
          have different : r ≠ revision := by rintro rfl; simp at missing
          rcases other r different with same | small
          · exact same
          · simp only [Function.update_of_ne different] at missing
            rw [committed, committed, if_pos small, if_pos (by omega)]
            exact tracks.unchanged r missing
        record := fun r val found => by
          by_cases same : r = revision
          · subst same
            simp only [Function.update_self, Option.some.injEq] at found
            subst found
            refine ⟨_, sys.uncompress_compress _ fits, ?_⟩
            have here : committed version r repo.tree r = repo.tree := by
              rw [committed, if_neg (by omega)]
            rw [here, commitData]
            by_cases snapshot : isSnapshot r
            -- a snapshot holds the whole tree, any other record the changes since the last commit
            · rw [if_pos snapshot, if_pos snapshot, prDeltaApply_prEncode]
            · rw [if_neg snapshot, if_neg snapshot, before, prDeltaApply_encode, tracks.working]
          · simp only [Function.update_of_ne same] at found
            -- an older record: the commit left both trees around it alone
            have small : r < revision := by
              by_contra large
              rw [tracks.unwritten r (by omega)] at found
              cases found
            have earlier : committed version revision repo.tree (r - 1) = version (r - 1) := by
              rw [committed, if_pos (by omega)]
            have here : committed version revision repo.tree r = version r := by
              rw [committed, if_pos small]
            rw [earlier, here]
            exact tracks.record r val found
        pending := rfl
        working := by simp only [applyEntries_nil]; rw [committed, if_neg (by omega)] }

/-! ## Reconstruction -/

/-- The round of `pr_reconstruct` for `r` turns the previous tree into that of `r`. -/
theorem Tracks.step (tracks : Tracks sys repo last version) {r : Int} (ordinary : ¬ isSnapshot r) :
    prReconstructStep sys repo (version (r - 1)) r = some (version r) := by
  unfold prReconstructStep
  cases found : repo.db r with
  | none => rw [tracks.unchanged r found]
  | some val =>
    obtain ⟨data, unpacked, applied⟩ := tracks.record r val found
    rw [if_neg ordinary] at applied
    simp [unpacked, applied]

theorem Tracks.step_base (tracks : Tracks sys repo last version) {r : Int}
    (available : (repo.db r).isSome ∧ isSnapshot r ∨ version (r - 1) = .empty) :
    prReconstructStep sys repo .empty r = some (version r) := by
  rcases available with ⟨stored, snapshot⟩ | empty
  · obtain ⟨val, found⟩ := Option.isSome_iff_exists.mp stored
    obtain ⟨data, unpacked, applied⟩ := tracks.record r val found
    rw [if_pos snapshot] at applied
    simp [prReconstructStep, found, unpacked, applied]
  · unfold prReconstructStep
    cases found : repo.db r with
    | none => rw [tracks.unchanged r found, empty]
    | some val =>
      obtain ⟨data, unpacked, applied⟩ := tracks.record r val found
      rw [empty, ite_self] at applied
      simp [unpacked, applied]

theorem not_snapshot_between {revision r : Int} (above : snapshotBase revision < r) (below : r ≤ revision) :
    ¬ isSnapshot r := by
  rintro ⟨-, multiple⟩
  simp only [snapshotBase, snapshotInterval] at above multiple
  omega

/-- A revision is rebuilt when its base is a stored snapshot, or when there was
nothing before the base. -/
theorem Tracks.reconstruct (tracks : Tracks sys repo last version) (revision : Int)
    (available : (repo.db (snapshotBase revision)).isSome ∧ isSnapshot (snapshotBase revision) ∨
      version (snapshotBase revision - 1) = .empty) :
    prReconstruct sys repo .empty revision = some (version revision) := by
  have count : snapshotBase revision + ((revision % snapshotInterval).toNat : Int) = revision := by
    simp only [snapshotBase, snapshotInterval]
    omega
  rw [prReconstruct, replay_reaches (tracks.step_base available), count]
  intro r above below
  exact tracks.step (not_snapshot_between above (by omega))

/-- The snapshots a reconstruction may start from have all been written. -/
def Snapshots (repo : PathRepo) (last : Int) : Prop :=
  ∀ r, isSnapshot r → r ≤ last → (repo.db r).isSome

theorem Tracks.reconstruct_of_snapshots (tracks : Tracks sys repo last version)
    (snapshots : Snapshots repo last) {revision : Int} (committed : revision ≤ last) :
    prReconstruct sys repo .empty revision = some (version revision) := by
  apply tracks.reconstruct
  by_cases positive : 0 < snapshotBase revision
  · have snapshot : isSnapshot (snapshotBase revision) := by
      refine ⟨positive, ?_⟩
      simp only [snapshotBase, snapshotInterval]
      omega
    refine .inl ⟨snapshots _ snapshot ?_, snapshot⟩
    simp only [snapshotBase, snapshotInterval]
    omega
  · exact .inr (tracks.unborn _ (by omega))

/-- Commits that skip no multiple of the interval leave no snapshot out. -/
theorem Snapshots.commit (snapshots : Snapshots repo last) {revision : Int}
    (gapless : ∀ r, isSnapshot r → last < r → revision ≤ r) :
    Snapshots (pathRepoCommit sys repo revision) revision := by
  intro r snapshot le
  unfold pathRepoCommit
  split
  · next empty =>
    have different : r ≠ revision := fun same => empty.2 (same ▸ snapshot)
    refine snapshots r snapshot ?_
    by_contra above
    have := gapless r snapshot (by omega)
    omega
  · simp only
    by_cases same : r = revision
    · subst same; simp
    · rw [Function.update_of_ne same]
      refine snapshots r snapshot ?_
      by_contra above
      have := gapless r snapshot (by omega)
      omega

theorem Tracks.reconstruct_total (tracks : Tracks sys repo last version) (tree : CbSet) (revision : Int) :
    ∃ rebuilt, prReconstruct sys repo tree revision = some rebuilt := by
  apply replay_total
  intro s r
  unfold prReconstructStep
  cases found : repo.db r with
  | none => exact ⟨s, rfl⟩
  | some val =>
    obtain ⟨data, unpacked, -⟩ := tracks.record r val found
    exact ⟨_, by simp only [unpacked]; rfl⟩

/-- The head is rebuilt to the last committed tree, also before the first commit. -/
theorem Tracks.reconstruct_head (tracks : Tracks sys repo last version) (snapshots : Snapshots repo last) :
    prReconstruct sys repo .empty repo.head = some (version last) := by
  rw [tracks.head]
  have bound := tracks.bound
  by_cases started : 0 ≤ last
  · rw [Int.max_eq_left started]
    exact tracks.reconstruct_of_snapshots snapshots (Int.le_refl _)
  · rw [Int.max_eq_right (by omega), ← tracks.frozen 0 (by omega)]
    exact tracks.reconstruct 0 (.inr (tracks.unborn _ (by decide)))

theorem Tracks.discard (tracks : Tracks sys repo last version)
    (rebuilt : prReconstruct sys repo .empty repo.head = some (version last)) :
    ∃ next, pathRepoDiscard sys repo = some next ∧ Tracks sys next last version ∧
      next.tree = version last ∧ next.db = repo.db ∧ next.cache = repo.cache := by
  refine ⟨{ repo with deltaLen := 0, delta := [], tree := version last }, ?_, ?_, rfl, rfl, rfl⟩
  · rw [pathRepoDiscard, rebuilt]
    rfl
  · exact { tracks with pending := rfl, working := rfl }

theorem Tracks.query (tracks : Tracks sys repo last version) (revision : Int) :
    ∃ tree next, prTree sys repo revision = some (tree, next) ∧ Tracks sys next last version ∧
      next.db = repo.db ∧ next.tree = repo.tree ∧ next.head = repo.head := by
  unfold prTree
  cases repo.cache.find? revision with
  | some tree => exact ⟨tree, repo, rfl, tracks, rfl, rfl, rfl⟩
  | none =>
    obtain ⟨tree, rebuilt⟩ := tracks.reconstruct_total .empty revision
    exact ⟨tree, { repo with cache := repo.cache.put revision tree }, by simp [rebuilt],
      { tracks with }, rfl, rfl, rfl⟩

/-! ## Runs of calls -/

/-- What is compressed is counted in an `int`. -/
def PathCall.Fits (sys : Platform) (repo : PathRepo) : PathCall → Prop
  | .commit revision => (commitData sys repo revision).length < 2147483648
  | .add _ | .delete _ | .discard | .tree _ => True

instance PathCall.Fits.decidable (sys : Platform) (repo : PathRepo) : ∀ call : PathCall, Decidable (call.Fits sys repo)
  | .commit revision => inferInstanceAs (Decidable ((commitData sys repo revision).length < 2147483648))
  | .add _ | .delete _ | .discard | .tree _ => inferInstanceAs (Decidable True)

/-- The encoded length of every commit of a run fits in an `int`. -/
def EncodedFits (sys : Platform) (calls : List PathCall) : Prop :=
  AllowedRun (pathRepoStep sys) (PathCall.Fits sys) pathRepoCreate calls

instance (sys : Platform) (calls : List PathCall) : Decidable (EncodedFits sys calls) :=
  inferInstanceAs (Decidable (AllowedRun (pathRepoStep sys) (PathCall.Fits sys) pathRepoCreate calls))

theorem EncodedFits.shorter {calls : List PathCall} {call : PathCall} (fits : EncodedFits sys (calls ++ [call])) :
    EncodedFits sys calls :=
  (allowedRun_snoc.mp fits).1

theorem EncodedFits.commit {calls : List PathCall} {revision : Int} (fits : EncodedFits sys (calls ++ [.commit revision]))
    (ran : pathRepoRun sys calls = some repo) : (commitData sys repo revision).length < 2147483648 :=
  (allowedRun_snoc.mp fits).2 repo ran

def commits (calls : List PathCall) : List Int :=
  calls.filterMap fun
    | .commit revision => some revision
    | _ => none

/-- Revision numbers without gaps that start at 0 or 1. -/
def Consecutive (revisions : List Int) : Prop :=
  ∃ first : Int, (first = 0 ∨ first = 1) ∧ revisions = (List.range revisions.length).map fun i : Nat => first + Int.ofNat i

theorem Consecutive.shorter {revisions more : List Int} (numbered : Consecutive (revisions ++ more)) :
    Consecutive revisions := by
  obtain ⟨first, start, same⟩ := numbered
  refine ⟨first, start, ?_⟩
  have taken := congrArg (List.take revisions.length) same
  rw [List.take_left, List.length_append, ← List.map_take, List.take_range,
    Nat.min_eq_left (Nat.le_add_right _ _)] at taken
  exact taken

/-- The next number of a numbered run is one more than the last, or 0 or 1 at its start. -/
theorem Consecutive.next {revisions : List Int} {revision : Int}
    (numbered : Consecutive (revisions ++ [revision])) :
    (revisions = [] ∧ (revision = 0 ∨ revision = 1)) ∨
      ∃ before, revisions.getLast? = some before ∧ revision = before + 1 := by
  obtain ⟨first, start, same⟩ := numbered
  rw [List.length_append, List.length_singleton, List.range_succ, List.map_append] at same
  obtain ⟨init, final⟩ := List.append_inj' same rfl
  have value : revision = first + (revisions.length : Int) := by simpa using final
  cases revisions using List.reverseRecOn with
  | nil => exact .inl ⟨rfl, by simpa [value] using start⟩
  | append_singleton revisions before =>
    rw [List.length_append, List.length_singleton, List.range_succ, List.map_append] at init
    have previous : before = first + (revisions.length : Int) := by
      simpa using (List.append_inj' init rfl).2
    refine .inr ⟨before, by simp, ?_⟩
    rw [value, previous, List.length_append, List.length_singleton]
    push_cast
    omega

theorem commits_snoc_commit (calls : List PathCall) (revision : Int) :
    commits (calls ++ [.commit revision]) = commits calls ++ [revision] := by
  simp [commits]

theorem commits_snoc_other (calls : List PathCall) {call : PathCall} (other : ∀ r, call ≠ .commit r) :
    commits (calls ++ [call]) = commits calls := by
  cases call <;> simp_all [commits]

/-- A call of a run with one more call is an earlier one or the last. -/
theorem snoc_eq_split {calls before after : List PathCall} {last call : PathCall}
    (same : calls ++ [last] = before ++ call :: after) :
    (after = [] ∧ calls = before ∧ last = call) ∨ ∃ rest, after = rest ++ [last] ∧ calls = before ++ call :: rest := by
  cases after using List.reverseRecOn with
  | nil =>
    obtain ⟨front, back⟩ := List.append_inj' same rfl
    exact .inl ⟨rfl, front, by simpa using back⟩
  | append_singleton rest final =>
    rw [← List.cons_append, ← List.append_assoc] at same
    obtain ⟨front, back⟩ := List.append_inj' same rfl
    exact .inr ⟨rest, by simpa using back.symm, front⟩

theorem mem_commits {calls before after : List PathCall} {r : Int} (split : calls = before ++ .commit r :: after) :
    r ∈ commits calls := by
  subst split
  simp [commits]

/-- What a run with increasing revision numbers leaves behind: the trees of the committed revisions. -/
structure Recorded (sys : Platform) (calls : List PathCall) (repo : PathRepo) (last : Int)
    (version : Int → CbSet) : Prop where
  tracks : Tracks sys repo last version
  final : (commits calls).getLastD (-1) = last
  sorted : (commits calls).Pairwise (· < ·)
  bounded : ∀ c ∈ commits calls, c ≤ last
  steady : ∀ r, r ∉ commits calls → version r = version (r - 1)
  trees : ∀ before r after, calls = before ++ .commit r :: after →
    ∃ mid, pathRepoRun sys (before ++ [.commit r]) = some mid ∧ version r = mid.tree

theorem recorded_create (sys : Platform) : Recorded sys [] pathRepoCreate (-1) fun _ => .empty :=
  ⟨tracks_create sys, rfl, .nil, fun _ member => by simp [commits] at member, fun _ _ => rfl,
    fun before r after same => by simp at same⟩

/-- Calls that commit nothing keep the recorded trees. -/
theorem Recorded.keep {calls : List PathCall} {call : PathCall} {next : PathRepo}
    (recorded : Recorded sys calls repo last version) (other : ∀ r, call ≠ .commit r)
    (tracks : Tracks sys next last version) : Recorded sys (calls ++ [call]) next last version := by
  have same := commits_snoc_other calls other
  refine ⟨tracks, by rw [same]; exact recorded.final, by rw [same]; exact recorded.sorted,
    by rw [same]; exact recorded.bounded, by rw [same]; exact recorded.steady, ?_⟩
  intro before r after equal
  rcases snoc_eq_split equal with ⟨-, -, same⟩ | ⟨rest, -, front⟩
  · exact absurd same (other r)
  · exact recorded.trees before r rest front

theorem Recorded.commit {calls : List PathCall} {revision : Int} (recorded : Recorded sys calls repo last version)
    (ran : pathRepoRun sys calls = some repo) (later : last < revision) (fits : EncodedFits sys (calls ++ [.commit revision])) :
    Recorded sys (calls ++ [.commit revision]) (pathRepoCommit sys repo revision) revision
      (committed version revision repo.tree) := by
  refine ⟨recorded.tracks.commit later (fits.commit ran), by rw [commits_snoc_commit]; simp, ?_, ?_, ?_, ?_⟩
  · rw [commits_snoc_commit, List.pairwise_append]
    refine ⟨recorded.sorted, List.pairwise_singleton _ _, fun c member r last => ?_⟩
    rw [List.mem_singleton.mp last]
    have := recorded.bounded c member
    omega
  · intro c member
    rw [commits_snoc_commit, List.mem_append, List.mem_singleton] at member
    rcases member with old | same
    · have := recorded.bounded c old
      omega
    · omega
  · intro r absent
    rw [commits_snoc_commit, List.mem_append, List.mem_singleton, not_or] at absent
    unfold committed
    by_cases before : r < revision
    · rw [if_pos before, if_pos (by omega), recorded.steady r absent.1]
    · rw [if_neg before, if_neg (by omega)]
  · intro before r after equal
    rcases snoc_eq_split equal with ⟨-, front, same⟩ | ⟨rest, -, front⟩
    · cases same
      subst front
      refine ⟨pathRepoCommit sys repo revision, ?_, ?_⟩
      · rw [pathRepoRun, runCalls_snoc, ← pathRepoRun, ran, Option.bind_some]
        rfl
      · rw [committed, if_neg (by omega)]
        unfold pathRepoCommit
        split <;> rfl
    · obtain ⟨mid, ran', tree⟩ := recorded.trees before r rest front
      have le := recorded.bounded r (mem_commits front)
      refine ⟨mid, ran', ?_⟩
      rw [committed, if_pos (by omega), tree]

/-- Between two commits nothing changes. -/
theorem Recorded.tree_at {calls before after : List PathCall} {c r : Int} {mid : PathRepo}
    (recorded : Recorded sys calls repo last version) (split : calls = before ++ .commit c :: after) (le : c ≤ r)
    (next : ∀ c' ∈ commits after, r < c') (ran : pathRepoRun sys before = some mid) : version r = mid.tree := by
  have here : version c = mid.tree := by
    obtain ⟨mid', ran', tree⟩ := recorded.trees before c after split
    rw [pathRepoRun, runCalls_snoc, ← pathRepoRun, ran, Option.bind_some] at ran'
    rw [tree, ← Option.some.inj ran']
    unfold pathRepoCommit
    split <;> rfl
  have parts : commits calls = commits before ++ c :: commits after := by
    rw [split]
    simp [commits]
  have sorted := recorded.sorted
  rw [parts, List.pairwise_append] at sorted
  have between : ∀ k : Nat, c + k ≤ r → version (c + k) = version c := by
    intro k
    induction k with
    | zero => simp
    | succ k ih =>
      intro bound
      push_cast at bound ⊢
      rw [recorded.steady, show c + (↑k + 1) - 1 = c + (k : Int) by omega]
      · exact ih (by omega)
      · rw [parts, List.mem_append, List.mem_cons]
        rintro (early | same | late)
        · have := sorted.2.2 _ early c List.mem_cons_self
          omega
        · omega
        · have := next _ late
          omega
  have reached := between (r - c).toNat (by omega)
  rw [← here, ← reached]
  congr 1
  omega

theorem recorded_run (sys : Platform) (calls : List PathCall) (numbered : Consecutive (commits calls))
    (fits : EncodedFits sys calls) :
    ∃ repo, pathRepoRun sys calls = some repo ∧
      ∃ last version, Recorded sys calls repo last version ∧ Snapshots repo last := by
  let inv (calls : List PathCall) (repo : PathRepo) : Prop :=
    pathRepoRun sys calls = some repo ∧ ∃ last version, Recorded sys calls repo last version ∧ Snapshots repo last
  have init : inv [] pathRepoCreate :=
    ⟨rfl, -1, _, recorded_create sys, fun r snapshot le => by have := snapshot.1; omega⟩
  let legal (calls : List PathCall) : Prop := Consecutive (commits calls) ∧ EncodedFits sys calls
  have shorter : ∀ calls last, legal (calls ++ [last]) → legal calls := by
    rintro calls last ⟨ok, fits⟩
    simp only [commits, List.filterMap_append] at ok
    exact ⟨ok.shorter, fits.shorter⟩
  have next : ∀ calls call repo, legal (calls ++ [call]) → inv calls repo →
      ∃ s', pathRepoStep sys repo call = some s' ∧ inv (calls ++ [call]) s' := by
    rintro calls call repo ⟨ok, fits⟩ ⟨ran, last, version, recorded, snapshots⟩
    have continue_run : ∀ next, pathRepoStep sys repo call = some next →
        pathRepoRun sys (calls ++ [call]) = some next := by
      intro next stepped
      rw [pathRepoRun, runCalls_snoc, ← pathRepoRun, ran, Option.bind_some, stepped]
    have keep : ∀ next, pathRepoStep sys repo call = some next → (∀ r, call ≠ .commit r) →
        Tracks sys next last version → next.db = repo.db →
        ∃ s', pathRepoStep sys repo call = some s' ∧ inv (calls ++ [call]) s' := by
      intro next stepped other tracks same
      refine ⟨next, stepped, continue_run next stepped, last, version, recorded.keep other tracks, ?_⟩
      intro r snapshot le
      rw [same]
      exact snapshots r snapshot le
    cases call with
    | add path => exact keep _ rfl (by simp) (recorded.tracks.add path) rfl
    | delete path =>
      refine keep _ rfl (by simp) (recorded.tracks.delete path) ?_
      rw [pathRepoDelete, foldl_deleteOne]
    | discard =>
      obtain ⟨next, stepped, tracks, -, same, -⟩ := recorded.tracks.discard (recorded.tracks.reconstruct_head snapshots)
      exact keep next stepped (by simp) tracks same
    | tree revision =>
      obtain ⟨tree, next, stepped, tracks, same, -⟩ := recorded.tracks.query revision
      exact keep next (by simp [pathRepoStep, stepped]) (by simp) tracks same
    | commit revision =>
      have bound := recorded.tracks.bound
      -- the numbers are consecutive, so that no snapshot is passed over
      have next : last < revision ∧ ∀ r, isSnapshot r → last < r → revision ≤ r := by
        have final := recorded.final
        rw [commits_snoc_commit] at ok
        rcases Consecutive.next ok with ⟨empty, start⟩ | ⟨before, found, value⟩
        · rw [empty] at final
          have last_eq : last = -1 := by simpa using final.symm
          refine ⟨by omega, fun r snapshot above => ?_⟩
          have := snapshot.1
          omega
        · have last_eq : before = last := by
            rw [← final, List.getLastD_eq_getLast?, found]
            rfl
          refine ⟨by omega, fun r _ above => by omega⟩
      exact ⟨_, rfl, continue_run _ rfl, revision, _, recorded.commit ran next.1 fits, snapshots.commit next.2⟩
  obtain ⟨repo, -, ran, rest⟩ :=
    @runCalls_invariant _ _ _ _ legal inv init shorter next calls ⟨numbered, fits⟩
  exact ⟨repo, ran, rest⟩

/-- Every committed revision is rebuilt to the tree that was committed, and a
discard brings the tree of the head back. -/
theorem path_repo_versions (sys : Platform) (calls : List PathCall)
    (numbered : Consecutive (commits calls)) (fits : EncodedFits sys calls) :
    ∃ repo, pathRepoRun sys calls = some repo ∧
      (∀ before r after, calls = before ++ .commit r :: after →
        ∃ mid, pathRepoRun sys (before ++ [.commit r]) = some mid ∧
          prReconstruct sys repo .empty r = some mid.tree) ∧
      repo.head = max ((commits calls).getLastD (-1)) 0 ∧
      (∀ before, calls = before ++ [.discard] →
        prReconstruct sys repo .empty repo.head = some repo.tree) := by
  obtain ⟨repo, ran, last, version, recorded, snapshots⟩ := recorded_run sys calls numbered fits
  refine ⟨repo, ran, ?_, by rw [recorded.final]; exact recorded.tracks.head, ?_⟩
  · intro before r after same
    obtain ⟨mid, ran', tree⟩ := recorded.trees before r after same
    refine ⟨mid, ran', ?_⟩
    rw [← tree]
    exact recorded.tracks.reconstruct_of_snapshots snapshots (recorded.bounded r (mem_commits same))
  · intro before same
    subst same
    have earlier : Consecutive (commits before) := by
      rw [commits, List.filterMap_append] at numbered
      exact numbered.shorter
    obtain ⟨repo', ran', last', version', recorded', snapshots'⟩ := recorded_run sys before earlier fits.shorter
    rw [pathRepoRun, runCalls_snoc, ← pathRepoRun, ran', Option.bind_some] at ran
    obtain ⟨next, stepped, tracks, tree, records, -⟩ :=
      recorded'.tracks.discard (recorded'.tracks.reconstruct_head snapshots')
    have same : next = repo := Option.some.inj (stepped.symm.trans ran)
    subst same
    have snapshots : Snapshots next last' := fun r snapshot le => by
      rw [records]
      exact snapshots' r snapshot le
    rw [tree]
    exact tracks.reconstruct_head snapshots

/-- Two revisions around a discard. -/
theorem path_repo_versions_discarded :
    Consecutive (commits [.add (cstr "a"), .commit 1, .delete (cstr "a"), .add (cstr "b"), .discard,
      .commit 2, .discard]) ∧
    ∃ repo, pathRepoRun .plain [.add (cstr "a"), .commit 1, .delete (cstr "a"), .add (cstr "b"), .discard,
        .commit 2, .discard] = some repo ∧ repo.head = 2 ∧
      prReconstruct .plain repo .empty 2 = some repo.tree := by
  have numbered : Consecutive (commits [.add (cstr "a"), .commit 1, .delete (cstr "a"), .add (cstr "b"),
      .discard, .commit 2, .discard]) := ⟨1, .inr rfl, by decide⟩
  obtain ⟨repo, ran, -, head, reverted⟩ := path_repo_versions .plain _ numbered (by decide)
  have two : repo.head = 2 := head
  refine ⟨numbered, repo, ran, two, ?_⟩
  rw [← two]
  exact reverted [.add (cstr "a"), .commit 1, .delete (cstr "a"), .add (cstr "b"), .discard, .commit 2] rfl

end Rsvndump
