import Rsvndump.PathRepo.Traced
import Rsvndump.PathRepo.Versions

/-! The order of queries and commits.

A caller of the path storage commits increasing numbers and asks for numbers
below the next one. `Course` is the language of such runs. The cache is then
never stale, and a tree is rebuilt from its snapshot if that was not left out.
-/

set_option autoImplicit false

namespace Rsvndump

open Library

variable {sys : Platform}

/-- Nothing has been committed but empty trees: the first revision is still being edited. -/
def Unfilled (calls : List PathCall) : Prop :=
  ∃ pads tail, calls = pads ++ tail ∧ (∀ call ∈ pads, ∃ r, call = .commit r) ∧ commits tail = []

/-- The runs whose next number is at least `n`. Queries are for the numbers `asked` below it, or, if
`early`, for the number that is being edited while nothing is committed. The snapshots `left` are
left out. -/
inductive Course (left asked : Int → Prop) (early : Prop) : Int → TracedRepo sys → Prop
  | create : Course left asked early 0 .create
  | add {n : Int} {t : TracedRepo sys} (path : CString) : Course left asked early n t →
      Course left asked early n (t.add path).1
  | delete {n : Int} {t : TracedRepo sys} (path : CString) : Course left asked early n t →
      Course left asked early n (t.delete path)
  | query {n r : Int} {t t' : TracedRepo sys} {found : CbSet} : Course left asked early n t → asked r → r < n →
      t.tree r = some (found, t') → Course left asked early n t'
  | ahead {n : Int} {t t' : TracedRepo sys} {found : CbSet} : Course left asked early n t → early →
      Unfilled t.calls → t.tree n = some (found, t') → Course left asked early n t'
  | pass {n m : Int} {t : TracedRepo sys} : Course left asked early n t → n ≤ m →
      (∀ s, isSnapshot s → n ≤ s → s < m → left s) → Course left asked early m t
  | commit {n : Int} {t : TracedRepo sys} : Course left asked early n t → Course left asked early (n + 1) (t.commit n)
  | discard {n : Int} {t t' : TracedRepo sys} : Course left asked early n t → asked t.repo.head →
      t.repo.head < n → t.discard = some t' → Course left asked early n t'

variable {left asked : Int → Prop} {early : Prop} {n : Int} {t : TracedRepo sys}

/-! ## Cached trees -/

/-- A query is answered from the cache or by a reconstruction that is put into it. -/
theorem prTree_cases {repo repo' : PathRepo} {r : Int} {found : CbSet} (answered : prTree sys repo r = some (found, repo')) :
    (repo.cache.find? r = some found ∧ repo' = repo) ∨
      (repo.cache.find? r = none ∧ prReconstruct sys repo .empty r = some found ∧
        repo' = { repo with cache := repo.cache.put r found }) := by
  unfold prTree at answered
  split at answered
  · next hit =>
    cases answered
    exact .inl ⟨hit, rfl⟩
  · next miss =>
    obtain ⟨tree, rebuilt, same⟩ := Option.bind_eq_some_iff.mp answered
    cases same
    exact .inr ⟨miss, rebuilt, rfl⟩

/-- A reconstruction reads nothing but the records. -/
theorem prReconstruct_congr {repo repo' : PathRepo} (db : repo'.db = repo.db) (tree : CbSet) (r : Int) :
    prReconstruct sys repo' tree r = prReconstruct sys repo tree r := by
  unfold prReconstruct prReconstructStep
  rw [db]

/-- Queries for committed revisions are answered as a fresh reconstruction would, and no revision is
committed after its tree has been handed out. -/
structure CacheCoherent (sys : Platform) (calls : List PathCall) : Prop where
  fresh : ∀ before r after repo tree repo', calls = before ++ .tree r :: after →
    pathRepoRun sys before = some repo → r ≤ repo.head → prTree sys repo r = some (tree, repo') →
    prReconstruct sys repo .empty r = some tree
  settled : ∀ before r after, calls = before ++ .tree r :: after → .commit r ∉ after

theorem CacheCoherent.other {calls : List PathCall} {call : PathCall} (coherent : CacheCoherent sys calls)
    (no_query : ∀ r, call ≠ .tree r) (no_commit : ∀ r, call ≠ .commit r) : CacheCoherent sys (calls ++ [call]) := by
  constructor
  · intro before r after repo tree repo' split ran committed answered
    rcases snoc_eq_split split with ⟨-, -, same⟩ | ⟨rest, -, front⟩
    · exact absurd same (no_query r)
    · exact coherent.fresh before r rest repo tree repo' front ran committed answered
  · intro before r after split
    rcases snoc_eq_split split with ⟨-, -, same⟩ | ⟨rest, tail, front⟩
    · exact absurd same (no_query r)
    · rw [tail, List.mem_append, List.mem_singleton, not_or]
      exact ⟨coherent.settled before r rest front, (no_commit r).symm⟩

/-- A commit changes no tree with a smaller number. -/
theorem prReconstruct_commit {repo : PathRepo} {r n : Int} (earlier : r < n) (tree : CbSet) :
    prReconstruct sys (pathRepoCommit sys repo n) tree r = prReconstruct sys repo tree r := by
  unfold prReconstruct
  apply replay_congr
  intro s k above below
  have different : k ≠ n := by
    simp only [snapshotBase, snapshotInterval] at below
    omega
  have same : (pathRepoCommit sys repo n).db k = repo.db k := by
    unfold pathRepoCommit
    split
    · rfl
    · exact Function.update_of_ne different _ _
  unfold prReconstructStep
  rw [same]

/-- The cached trees are those of the database, and their numbers lie below the next one. -/
structure Cached (n : Int) (t : TracedRepo sys) : Prop where
  entries : ∀ entry ∈ t.repo.cache.entries, entry.1 < n
  coherent : t.repo.cache.Coherent (fun _ => True) (prReconstruct sys t.repo .empty)
  queries : ∀ r, .tree r ∈ t.calls → r < n
  calls : CacheCoherent sys t.calls

theorem cached_create : Cached 0 (.create : TracedRepo sys) := by
  have only : ∀ entry ∈ (pathRepoCreate.cache).entries, entry = ((-1 : Int), CbSet.empty) := by
    intro entry member
    exact List.eq_of_mem_replicate member
  have rebuilt : prReconstruct sys pathRepoCreate .empty (-1) = some .empty :=
    (tracks_create sys).reconstruct (-1) (.inr rfl)
  refine ⟨?_, ?_, ?_, ?_, ?_⟩
  · intro entry member
    rw [only entry member]
    decide
  · intro entry member _
    rw [only entry member]
    exact rebuilt
  · intro r member
    simp [TracedRepo.create] at member
  · intro before r after repo tree repo' split
    simp [TracedRepo.create] at split
  · intro before r after split
    simp [TracedRepo.create] at split

/-- Calls that leave records and cache alone. -/
theorem Cached.other {t' : TracedRepo sys} {call : PathCall} (cached : Cached n t)
    (db : t'.repo.db = t.repo.db) (cache : t'.repo.cache = t.repo.cache) (calls : t'.calls = t.calls ++ [call])
    (no_query : ∀ r, call ≠ .tree r) (no_commit : ∀ r, call ≠ .commit r) : Cached n t' := by
  refine ⟨by rw [cache]; exact cached.entries, ?_, ?_, ?_⟩
  · rw [cache]
    exact cached.coherent.mono fun entry _ _ => ⟨trivial, prReconstruct_congr db .empty entry.1⟩
  · intro r member
    rw [calls, List.mem_append, List.mem_singleton] at member
    exact cached.queries r (member.resolve_right (no_query r).symm)
  · rw [calls]
    exact cached.calls.other no_query no_commit

theorem Cached.query {t' : TracedRepo sys} {r : Int} {found : CbSet} (cached : Cached n t) (below : r < n)
    (reached : t.tree r = some (found, t')) : Cached n t' := by
  obtain ⟨answered, calls⟩ := TracedRepo.tree_eq_some.mp reached
  have hit : prReconstruct sys t.repo .empty r = some found := by
    rcases prTree_cases answered with ⟨hit, -⟩ | ⟨-, rebuilt, -⟩
    · exact cached.coherent.find hit trivial
    · exact rebuilt
  have db : t'.repo.db = t.repo.db := by
    rcases prTree_cases answered with ⟨-, same⟩ | ⟨-, -, same⟩ <;> rw [same]
  have entries : ∀ entry ∈ t'.repo.cache.entries, entry ∈ t.repo.cache.entries ∨ entry = (r, found) := by
    intro entry member
    rcases prTree_cases answered with ⟨-, kept⟩ | ⟨-, -, added⟩
    · rw [kept] at member
      exact .inl member
    · rw [added] at member
      exact List.mem_or_eq_of_mem_set member
  refine ⟨?_, ?_, ?_, ?_, ?_⟩
  · intro entry member
    rcases entries entry member with old | rfl
    · exact cached.entries entry old
    · exact below
  · intro entry member _
    rw [prReconstruct_congr db]
    rcases entries entry member with old | rfl
    · exact cached.coherent entry old trivial
    · exact hit
  · intro k member
    rw [calls, List.mem_append, List.mem_singleton] at member
    rcases member with old | last
    · exact cached.queries k old
    · cases last
      exact below
  · intro before k after repo tree repo' split ran committed answered'
    rw [calls] at split
    rcases snoc_eq_split split with ⟨-, front, last⟩ | ⟨rest, -, front⟩
    · cases last
      subst front
      cases Option.some.inj (t.ran.symm.trans ran)
      have tree_eq := congrArg (fun answer => answer.map Prod.fst) (answered.symm.trans answered')
      simp only [Option.map_some, Option.some.injEq] at tree_eq
      rw [← tree_eq]
      exact hit
    · exact cached.calls.fresh before k rest repo tree repo' front ran committed answered'
  · intro before k after split
    rw [calls] at split
    rcases snoc_eq_split split with ⟨empty, -, -⟩ | ⟨rest, tail, front⟩
    · simp [empty]
    · rw [tail, List.mem_append, List.mem_singleton, not_or]
      exact ⟨cached.calls.settled before k rest front, by simp⟩

theorem Cached.pass (cached : Cached n t) {m : Int} (le : n ≤ m) : Cached m t := by
  refine ⟨fun entry member => ?_, cached.coherent, fun r member => ?_, cached.calls⟩
  · have := cached.entries entry member
    omega
  · have := cached.queries r member
    omega

theorem Cached.commit (cached : Cached n t) : Cached (n + 1) (t.commit n) := by
  have cache : (t.commit n).repo.cache = t.repo.cache := by
    simp only [TracedRepo.commit, pathRepoCommit]
    split <;> rfl
  refine ⟨?_, ?_, ?_, ?_, ?_⟩
  · intro entry member
    rw [cache] at member
    have := cached.entries entry member
    omega
  · intro entry member _
    rw [cache] at member
    have earlier := cached.entries entry member
    exact (prReconstruct_commit earlier .empty).trans (cached.coherent entry member trivial)
  · intro r member
    have old : .tree r ∈ t.calls := by simpa [TracedRepo.commit] using member
    have := cached.queries r old
    omega
  · intro before r after repo tree repo' split
    rcases snoc_eq_split split with ⟨-, -, last⟩ | ⟨rest, -, front⟩
    · cases last
    · exact cached.calls.fresh before r rest repo tree repo' front
  · intro before r after split
    rcases snoc_eq_split split with ⟨-, -, last⟩ | ⟨rest, tail, front⟩
    · cases last
    · -- the committed number is not among those asked for
      have asked : .tree r ∈ t.calls := by
        rw [front]
        simp
      have below := cached.queries r asked
      rw [tail, List.mem_append, List.mem_singleton, not_or]
      refine ⟨cached.calls.settled before r rest front, ?_⟩
      intro same
      cases same
      omega

theorem Course.cached (course : Course left asked early n t) (late : ¬ early) : Cached n t := by
  induction course with
  | create => exact cached_create
  | add path _ ih => exact ih.other rfl rfl rfl (by simp) (by simp)
  | @delete n t path _ ih =>
    refine ih.other ?_ ?_ rfl (by simp) (by simp)
    · simp only [TracedRepo.delete, pathRepoDelete, foldl_deleteOne]
    · simp only [TracedRepo.delete, pathRepoDelete, foldl_deleteOne]
  | query _ _ below reached ih => exact ih.query below reached
  | ahead _ now => exact absurd now late
  | pass _ le _ ih => exact ih.pass le
  | commit _ ih => exact ih.commit
  | discard _ _ _ reverted ih =>
    obtain ⟨discarded, calls⟩ := TracedRepo.discard_eq_some.mp reverted
    obtain ⟨tree, -, same⟩ := Option.bind_eq_some_iff.mp discarded
    have repo := (Option.some.inj same).symm
    exact ih.other (by rw [repo]) (by rw [repo]) calls (by simp) (by simp)

/-! ## Snapshots -/

/-- The calls that run `pr_reconstruct(r)`. -/
def Rebuilds (repo : PathRepo) (r : Int) : PathCall → Prop
  | .tree revision => revision = r ∧ repo.cache.find? r = none
  | .discard => repo.head = r
  | .add _ | .delete _ | .commit _ => False

/-- Some path was committed with a number below `r`. -/
def CommittedBefore (sys : Platform) (calls : List PathCall) (r : Int) : Prop :=
  ∃ before c after mid path, calls = before ++ .commit c :: after ∧ c < r ∧
    pathRepoRun sys before = some mid ∧ path ∈ mid.tree

/-- Whenever a tree is rebuilt, its snapshot is there, and the result is the tree of the last commit
up to its number, as long as an `int` counts what is compressed. -/
def BasesStored (sys : Platform) (calls : List PathCall) : Prop :=
  ∀ before call after repo r, calls = before ++ call :: after → pathRepoRun sys before = some repo →
    Rebuilds repo r call → snapshotInterval ≤ r → CommittedBefore sys before r →
    (repo.db (snapshotBase r)).isSome = true ∧ (EncodedFits sys before →
      ∀ earlier c later mid, before = earlier ++ .commit c :: later → c ≤ r → (∀ c' ∈ commits later, r < c') →
        pathRepoRun sys earlier = some mid → prReconstruct sys repo .empty r = some mid.tree)

theorem isSnapshot_snapshotBase {r : Int} (large : snapshotInterval ≤ r) : isSnapshot (snapshotBase r) := by
  simp only [isSnapshot, snapshotBase, snapshotInterval] at *
  omega

theorem snapshotBase_le (r : Int) : snapshotBase r ≤ r := by
  simp only [snapshotBase, snapshotInterval]
  omega

/-- The snapshots below `n` that were not left out. -/
def SnapshotsKept (left : Int → Prop) (n : Int) (t : TracedRepo sys) : Prop :=
  ∀ s, isSnapshot s → s < n → ¬ left s → (t.repo.db s).isSome = true

theorem SnapshotsKept.commit (kept : SnapshotsKept left n t) : SnapshotsKept left (n + 1) (t.commit n) := by
  intro s snapshot below present
  simp only [TracedRepo.commit, pathRepoCommit]
  split
  · next empty =>
    have different : s ≠ n := fun same => empty.2 (same ▸ snapshot)
    exact kept s snapshot (by omega) present
  · simp only
    by_cases same : s = n
    · rw [same, Function.update_self]
      rfl
    · rw [Function.update_of_ne same]
      exact kept s snapshot (by omega) present

/-- Only a commit changes the database. -/
theorem Course.snapshotsKept (course : Course left asked early n t) : SnapshotsKept left n t := by
  induction course with
  | create =>
    intro s snapshot below
    have := snapshot.1
    omega
  | add path _ ih => exact ih
  | @delete n t path _ ih =>
    unfold SnapshotsKept
    simp only [TracedRepo.delete, pathRepoDelete, foldl_deleteOne]
    exact ih
  | query _ _ _ reached ih | ahead _ _ _ reached ih =>
    unfold SnapshotsKept
    rcases prTree_cases (TracedRepo.tree_eq_some.mp reached).1 with ⟨-, same⟩ | ⟨-, -, same⟩ <;> rw [same] <;> exact ih
  | @pass n m t _ le skipped ih =>
    intro s snapshot below present
    by_cases before : s < n
    · exact ih s snapshot before present
    · exact absurd (skipped s snapshot (by omega) below) present
  | commit _ ih => exact ih.commit
  | discard _ _ _ reverted ih =>
    obtain ⟨discarded, -⟩ := TracedRepo.discard_eq_some.mp reverted
    obtain ⟨tree, -, same⟩ := Option.bind_eq_some_iff.mp discarded
    unfold SnapshotsKept
    rw [← Option.some.inj same]
    exact ih

/-- The stored trees. -/
structure Stored (n : Int) (t : TracedRepo sys) (last : Int) (version : Int → CbSet) : Prop where
  recorded : Recorded sys t.calls t.repo last version
  below : last < n

variable {last : Int} {version : Int → CbSet}

theorem Stored.rebuilds (stored : Stored n t last version) (snapshots : SnapshotsKept left n t) {r : Int}
    (base : snapshotInterval ≤ r → snapshotBase r < n ∧ ¬ left (snapshotBase r)) :
    prReconstruct sys t.repo .empty r = some (version r) := by
  apply stored.recorded.tracks.reconstruct
  by_cases large : snapshotInterval ≤ r
  · have snapshot := isSnapshot_snapshotBase large
    exact .inl ⟨snapshots _ snapshot (base large).1 (base large).2, snapshot⟩
  · refine .inr (stored.recorded.tracks.unborn _ ?_)
    simp only [snapshotBase, snapshotInterval] at *
    omega

theorem Stored.keep {t' : TracedRepo sys} {call : PathCall} (stored : Stored n t last version)
    (calls : t'.calls = t.calls ++ [call]) (other : ∀ r, call ≠ .commit r)
    (tracks : Tracks sys t'.repo last version) : Stored n t' last version := by
  refine ⟨?_, stored.below⟩
  rw [calls]
  exact stored.recorded.keep other tracks

theorem Stored.tree {t' : TracedRepo sys} {r : Int} {found : CbSet} (stored : Stored n t last version)
    (reached : t.tree r = some (found, t')) : Stored n t' last version := by
  obtain ⟨answered, calls⟩ := TracedRepo.tree_eq_some.mp reached
  obtain ⟨tree, next, answered', tracks, -⟩ := stored.recorded.tracks.query r
  have same : next = t'.repo := by
    have equal := Option.some.inj (answered'.symm.trans answered)
    exact congrArg Prod.snd equal
  subst same
  exact stored.keep calls (by simp) tracks

theorem Stored.commit (stored : Stored n t last version) (fits : EncodedFits sys (t.commit n).calls) :
    Stored (n + 1) (t.commit n) n (committed version n t.repo.tree) :=
  ⟨stored.recorded.commit t.ran stored.below fits, by omega⟩

theorem Course.stored (course : Course left asked early n t)
    (kept : ∀ r, asked r → snapshotInterval ≤ r → ¬ left (snapshotBase r)) (fits : EncodedFits sys t.calls) :
    ∃ last version, Stored n t last version := by
  induction course with
  | create => exact ⟨-1, _, recorded_create sys, by decide⟩
  | add path _ ih =>
    obtain ⟨last, version, stored⟩ := ih fits.shorter
    exact ⟨last, version, stored.keep rfl (by simp) (stored.recorded.tracks.add path)⟩
  | delete path _ ih =>
    obtain ⟨last, version, stored⟩ := ih fits.shorter
    exact ⟨last, version, stored.keep rfl (by simp) (stored.recorded.tracks.delete path)⟩
  | query _ _ _ reached ih | ahead _ _ _ reached ih =>
    rw [(TracedRepo.tree_eq_some.mp reached).2] at fits
    obtain ⟨last, version, stored⟩ := ih fits.shorter
    exact ⟨last, version, stored.tree reached⟩
  | pass _ le _ ih =>
    obtain ⟨last, version, stored⟩ := ih fits
    exact ⟨last, version, stored.recorded, Int.lt_of_lt_of_le stored.below le⟩
  | commit _ ih =>
    obtain ⟨last, version, stored⟩ := ih fits.shorter
    exact ⟨_, _, stored.commit fits⟩
  | @discard n t t' course asks below reverted ih =>
    obtain ⟨discarded, calls⟩ := TracedRepo.discard_eq_some.mp reverted
    rw [calls] at fits
    obtain ⟨last, version, stored⟩ := ih fits.shorter
    have bounds := stored.recorded.tracks.bound
    have head := stored.recorded.tracks.head
    have rebuilt := stored.rebuilds course.snapshotsKept fun large =>
      ⟨Int.lt_of_le_of_lt (snapshotBase_le _) below, kept _ asks large⟩
    rw [stored.recorded.tracks.frozen t.repo.head (by omega)] at rebuilt
    obtain ⟨next, discarded', tracks, -⟩ := stored.recorded.tracks.discard rebuilt
    have same : next = t'.repo := Option.some.inj (discarded'.symm.trans discarded)
    subst same
    exact ⟨last, version, stored.keep calls (by simp) tracks⟩

theorem BasesStored.snoc {calls : List PathCall} {call : PathCall} (bases : BasesStored sys calls)
    (next : ∀ repo r, pathRepoRun sys calls = some repo → Rebuilds repo r call → snapshotInterval ≤ r →
      CommittedBefore sys calls r → (repo.db (snapshotBase r)).isSome = true ∧ (EncodedFits sys calls →
        ∀ earlier c later mid, calls = earlier ++ .commit c :: later → c ≤ r → (∀ c' ∈ commits later, r < c') →
          pathRepoRun sys earlier = some mid → prReconstruct sys repo .empty r = some mid.tree)) :
    BasesStored sys (calls ++ [call]) := by
  intro before call' after repo r split ran rebuilds large filled
  rcases snoc_eq_split split with ⟨-, front, last⟩ | ⟨rest, -, front⟩
  · subst front last
    exact next repo r ran rebuilds large filled
  · exact bases before call' rest repo r front ran rebuilds large filled

/-- A tree asked for below the next number. -/
theorem Course.base (course : Course left asked early n t)
    (kept : ∀ r, asked r → snapshotInterval ≤ r → ¬ left (snapshotBase r)) {repo : PathRepo} {r : Int}
    (ran : pathRepoRun sys t.calls = some repo) (below : r < n) (large : snapshotInterval ≤ r) (asks : asked r) :
    (repo.db (snapshotBase r)).isSome = true ∧ (EncodedFits sys t.calls →
      ∀ earlier c later mid, t.calls = earlier ++ .commit c :: later → c ≤ r → (∀ c' ∈ commits later, r < c') →
        pathRepoRun sys earlier = some mid → prReconstruct sys repo .empty r = some mid.tree) := by
  have same : t.repo = repo := Option.some.inj (t.ran.symm.trans ran)
  subst same
  have base : snapshotBase r < n := Int.lt_of_le_of_lt (snapshotBase_le r) below
  have present := kept r asks large
  refine ⟨course.snapshotsKept _ (isSnapshot_snapshotBase large) base present, ?_⟩
  intro fits earlier c later mid split le next ran'
  obtain ⟨last, version, stored⟩ := course.stored kept fits
  rw [stored.rebuilds course.snapshotsKept fun _ => ⟨base, present⟩, stored.recorded.tree_at split le next ran']

/-- Commits without any scheduled path leave the tree empty. -/
theorem run_commits {calls : List PathCall} (only : ∀ call ∈ calls, ∃ r, call = .commit r) {repo : PathRepo}
    (ran : pathRepoRun sys calls = some repo) : repo.tree = .empty := by
  induction calls using List.reverseRecOn generalizing repo with
  | nil =>
    cases ran
    rfl
  | append_singleton calls last ih =>
    obtain ⟨r, rfl⟩ := only last (by simp)
    rw [pathRepoRun, runCalls_snoc, ← pathRepoRun] at ran
    obtain ⟨before, ran', committed⟩ := Option.bind_eq_some_iff.mp ran
    have empty := ih (fun call member => only call (by simp [member])) ran'
    rw [← Option.some.inj committed]
    unfold pathRepoCommit
    split <;> exact empty

theorem Unfilled.not_committedBefore {calls : List PathCall} (unfilled : Unfilled calls) (r : Int) :
    ¬ CommittedBefore sys calls r := by
  rintro ⟨before, c, after, mid, path, split, -, ran, member⟩
  obtain ⟨pads, tail, parts, only, quiet⟩ := unfilled
  have early : ∃ rest, pads = before ++ .commit c :: rest := by
    rw [split] at parts
    rcases List.append_eq_append_iff.mp parts with ⟨extra, pads_eq, tail_eq⟩ | ⟨extra, before_eq, tail_eq⟩
    · cases extra with
      | nil =>
        rw [List.nil_append] at tail_eq
        rw [← tail_eq] at quiet
        simp [commits] at quiet
      | cons call extra =>
        simp only [List.cons_append, List.cons.injEq] at tail_eq
        exact ⟨extra, by rw [pads_eq, tail_eq.1]⟩
    · rw [tail_eq] at quiet
      simp [commits] at quiet
  obtain ⟨rest, pads_eq⟩ := early
  have empty := run_commits (fun call inside => only call (by rw [pads_eq]; simp [inside])) ran
  rw [empty] at member
  simp at member

/-- Every tree that a run rebuilds starts from its snapshot. -/
theorem Course.basesStored (course : Course left asked early n t)
    (kept : ∀ r, asked r → snapshotInterval ≤ r → ¬ left (snapshotBase r)) : BasesStored sys t.calls := by
  induction course with
  | create =>
    intro before call after repo r split
    simp [TracedRepo.create] at split
  | add path _ ih => exact ih.snoc fun repo r _ rebuilds => rebuilds.elim
  | delete path _ ih => exact ih.snoc fun repo r _ rebuilds => rebuilds.elim
  | query course asks below reached ih =>
    rw [(TracedRepo.tree_eq_some.mp reached).2]
    refine ih.snoc fun repo r ran rebuilds large _ => ?_
    obtain ⟨rfl, -⟩ := rebuilds
    exact course.base kept ran below large asks
  | ahead _ _ unfilled reached ih =>
    rw [(TracedRepo.tree_eq_some.mp reached).2]
    exact ih.snoc fun repo r _ _ _ filled => absurd filled (unfilled.not_committedBefore r)
  | pass _ _ _ ih => exact ih
  | commit _ ih => exact ih.snoc fun repo r _ rebuilds => rebuilds.elim
  | @discard n t t' course asks below reverted ih =>
    rw [(TracedRepo.discard_eq_some.mp reverted).2]
    refine ih.snoc fun repo r ran rebuilds large _ => ?_
    have same : t.repo = repo := Option.some.inj (t.ran.symm.trans ran)
    subst same
    cases rebuilds
    exact course.base kept ran below large asks

end Rsvndump
