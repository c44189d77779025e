import Rsvndump.Library.PathNames
import Rsvndump.PathRepo.CommitLog

/-! Listings of the server (`pr_fetch_paths`).

Behind each subdirectory come the entries below it, before the next entry of its parent.
Whether a subdirectory could be listed is not looked at.
-/

set_option autoImplicit false

namespace Rsvndump

open Library

/-! ## Remote trees -/

/-- The names of a directory itself. -/
def RemoteTree.names : RemoteTree → List CString
  | .nil => []
  | .file name rest => name :: rest.names
  | .dir name _ _ rest => name :: rest.names

/-- The entries of every directory have different names. -/
def RemoteTree.WellFormed : RemoteTree → Prop
  | .nil => True
  | .file name rest => PlainName name ∧ name ∉ rest.names ∧ rest.WellFormed
  | .dir name _ children rest => PlainName name ∧ name ∉ rest.names ∧ children.WellFormed ∧ rest.WellFormed

/-- Every directory can be listed. -/
def RemoteTree.AllListed : RemoteTree → Prop
  | .nil => True
  | .file _ rest => rest.AllListed
  | .dir _ listed children rest => listed = true ∧ children.AllListed ∧ rest.AllListed

/-- The entries below a directory, as the names on the way to them. -/
inductive Remote : RemoteTree → List CString → Prop
  | file {name : CString} {rest : RemoteTree} : Remote (.file name rest) [name]
  | dir {name : CString} {listed : Bool} {children rest : RemoteTree} : Remote (.dir name listed children rest) [name]
  | inside {name : CString} {listed : Bool} {children rest : RemoteTree} {names : List CString} :
      Remote children names → Remote (.dir name listed children rest) (name :: names)
  | behindFile {name : CString} {rest : RemoteTree} {names : List CString} : Remote rest names → Remote (.file name rest) names
  | behindDir {name : CString} {listed : Bool} {children rest : RemoteTree} {names : List CString} :
      Remote rest names → Remote (.dir name listed children rest) names

theorem Remote.spec {tree : RemoteTree} (wf : tree.WellFormed) {names : List CString} (entry : Remote tree names) :
    (∀ name ∈ names, PlainName name) ∧ ∃ name rest, names = name :: rest ∧ name ∈ tree.names := by
  induction entry with
  | file => exact ⟨by simpa using wf.1, _, [], rfl, List.mem_cons_self⟩
  | dir => exact ⟨by simpa using wf.1, _, [], rfl, List.mem_cons_self⟩
  | inside _ ih => exact ⟨List.forall_mem_cons.mpr ⟨wf.1, (ih wf.2.2.1).1⟩, _, _, rfl, List.mem_cons_self⟩
  | behindFile _ ih =>
    obtain ⟨plain, name, rest, split, member⟩ := ih wf.2.2
    exact ⟨plain, name, rest, split, List.mem_cons_of_mem _ member⟩
  | behindDir _ ih =>
    obtain ⟨plain, name, rest, split, member⟩ := ih wf.2.2.2
    exact ⟨plain, name, rest, split, List.mem_cons_of_mem _ member⟩

theorem subpath_injective {path a b : CString} (same : subpath path a = subpath path b) : a = b := by
  unfold subpath at same
  split at same
  · simpa using same
  · exact same

theorem subpath_ne (path : CString) {entry : CString} (some : entry ≠ []) : subpath path entry ≠ path := by
  unfold subpath
  split
  · simp
  · next empty =>
    rw [List.eq_nil_of_length_eq_zero (Nat.eq_zero_of_not_pos empty)]
    exact some

theorem subpath_joined (path name : CString) {names : List CString} (plain : PlainName name) (more : names ≠ []) :
    subpath (subpath path name) (joined names) = subpath path (joined (name :: names)) := by
  have some : (subpath path name).length > 0 := by
    unfold subpath
    split
    · rw [List.length_append, List.length_cons]
      omega
    · exact List.length_pos_iff.mpr plain.1
  rw [joined_cons name more, subpath, if_pos some]
  unfold subpath
  split <;> simp

/-- The full names of what is below a directory. -/
theorem mem_prFetchPathsRec {path : CString} {tree : RemoteTree} (wf : tree.WellFormed) (listed : tree.AllListed) (q : CString) :
    q ∈ prFetchPathsRec path tree ↔ ∃ names, Remote tree names ∧ q = subpath path (joined names) := by
  induction tree generalizing path with
  | nil =>
    simp only [prFetchPathsRec, List.not_mem_nil, false_iff]
    rintro ⟨names, entry, -⟩
    cases entry
  | file name rest ih =>
    rw [prFetchPathsRec, List.mem_cons, ih wf.2.2 listed]
    constructor
    · rintro (rfl | ⟨names, entry, rfl⟩)
      · exact ⟨[name], .file, rfl⟩
      · exact ⟨names, .behindFile entry, rfl⟩
    · rintro ⟨names, entry, rfl⟩
      cases entry with
      | file => exact .inl rfl
      | behindFile entry => exact .inr ⟨names, entry, rfl⟩
  | dir name own children rest ihChildren ihRest =>
    obtain ⟨plain, -, wfChildren, wfRest⟩ := wf
    obtain ⟨rfl, listedChildren, listedRest⟩ := listed
    rw [prFetchPathsRec, if_pos rfl, List.mem_cons, List.mem_append, ihChildren wfChildren listedChildren,
      ihRest wfRest listedRest]
    constructor
    · rintro (rfl | ⟨names, entry, rfl⟩ | ⟨names, entry, rfl⟩)
      · exact ⟨[name], .dir, rfl⟩
      · obtain ⟨-, first, others, split, -⟩ := entry.spec wfChildren
        exact ⟨name :: names, .inside entry, subpath_joined path name plain (by rw [split]; exact List.cons_ne_nil _ _)⟩
      · exact ⟨names, .behindDir entry, rfl⟩
    · rintro ⟨names, entry, rfl⟩
      cases entry with
      | dir => exact .inl rfl
      | @inside _ _ _ _ names entry =>
        obtain ⟨-, first, others, split, -⟩ := entry.spec wfChildren
        exact .inr (.inl ⟨names, entry, (subpath_joined path name plain (by rw [split]; exact List.cons_ne_nil _ _)).symm⟩)
      | behindDir entry => exact .inr (.inr ⟨names, entry, rfl⟩)

theorem nodup_prFetchPathsRec {path : CString} {tree : RemoteTree} (wf : tree.WellFormed) (listed : tree.AllListed) :
    (prFetchPathsRec path tree).Nodup := by
  -- entries with different names on the way have different full names
  have apart : ∀ {path : CString} {tree : RemoteTree} {name : CString} (names : List CString), tree.WellFormed → tree.AllListed →
      PlainName name → (∀ n ∈ names, PlainName n) → name ∉ tree.names →
      subpath path (joined (name :: names)) ∉ prFetchPathsRec path tree := by
    intro path tree name names wf listed plain plain' absent member
    obtain ⟨names', entry, same⟩ := (mem_prFetchPathsRec wf listed _).mp member
    obtain ⟨plain'', first, rest, split, present⟩ := entry.spec wf
    have all := joined_injective (List.forall_mem_cons.mpr ⟨plain, plain'⟩) plain'' (subpath_injective same)
    rw [split, List.cons.injEq] at all
    exact absent (all.1 ▸ present)
  induction tree generalizing path with
  | nil => exact List.nodup_nil
  | file name rest ih =>
    obtain ⟨plain, absent, wfRest⟩ := wf
    rw [prFetchPathsRec, List.nodup_cons]
    exact ⟨apart [] wfRest listed plain (by simp) absent, ih wfRest listed⟩
  | dir name own children rest ihChildren ihRest =>
    obtain ⟨plain, absent, wfChildren, wfRest⟩ := wf
    obtain ⟨rfl, listedChildren, listedRest⟩ := listed
    have inside : ∀ q ∈ prFetchPathsRec (subpath path name) children, ∃ names, names ≠ [] ∧ (∀ n ∈ names, PlainName n) ∧
        q = subpath path (joined (name :: names)) := by
      intro q member
      obtain ⟨names, entry, rfl⟩ := (mem_prFetchPathsRec wfChildren listedChildren q).mp member
      obtain ⟨plain', first, others, split, -⟩ := entry.spec wfChildren
      have more : names ≠ [] := by rw [split]; exact List.cons_ne_nil _ _
      exact ⟨names, more, plain', subpath_joined path name plain more⟩
    rw [prFetchPathsRec, if_pos rfl, List.nodup_cons, List.mem_append, not_or]
    refine ⟨⟨fun member => ?_, apart [] wfRest listedRest plain (by simp) absent⟩, List.nodup_append.mpr
      ⟨ihChildren wfChildren listedChildren, ihRest wfRest listedRest, fun q member q' member' same => ?_⟩⟩
    · obtain ⟨names, more, plain', same⟩ := inside _ member
      have all := @joined_injective [name] (name :: names) (by simpa using plain) (List.forall_mem_cons.mpr ⟨plain, plain'⟩)
        (subpath_injective same)
      exact more (List.cons.inj all).2.symm
    · obtain ⟨names, -, plain', rfl⟩ := inside q member
      exact apart names wfRest listedRest plain plain' absent (same ▸ member')

/-! ## Fetching -/

def RemoteNode.WellFormed : RemoteNode → Prop
  | .dir _ children => children.WellFormed
  | _ => True

/-- What the server has at a path and below it. -/
inductive RemotePath (path : CString) : RemoteNode → CString → Prop
  | file : RemotePath path .file path
  | dir {listed : Bool} {children : RemoteTree} : RemotePath path (.dir listed children) path
  | inside {listed : Bool} {children : RemoteTree} {names : List CString} :
      Remote children names → RemotePath path (.dir listed children) (subpath path (joined names))

/-- Some directory at or below the path cannot be listed. -/
def RemoteNode.ListingFails : RemoteNode → Prop
  | .dir listed children => listed = false ∨ ¬ children.AllListed
  | _ => False

/-- A fetch that succeeds has everything, each path once, and a failed listing makes it fail. -/
def FetchesAll (path : CString) (node : RemoteNode) : Prop :=
  (∀ paths, prFetchPaths path node = some paths → paths.Nodup ∧ ∀ q, q ∈ paths ↔ RemotePath path node q) ∧
    (node.ListingFails → prFetchPaths path node = none)

/-- The fetch is right just when a directory that can be listed has only such directories below it. -/
theorem fetchesAll_iff {path : CString} {node : RemoteNode} (wf : node.WellFormed) :
    FetchesAll path node ↔ ∀ children, node = .dir true children → children.AllListed := by
  constructor
  · rintro ⟨-, fails⟩ children rfl
    by_contra unlisted
    have failed := fails (.inr unlisted)
    cases failed
  · intro all
    cases node with
    | failed => exact ⟨fun paths wrong => (by cases wrong), False.elim⟩
    | missing =>
      refine ⟨fun paths fetched => ?_, False.elim⟩
      cases fetched
      refine ⟨List.nodup_nil, fun q => ⟨fun wrong => absurd wrong List.not_mem_nil, fun there => ?_⟩⟩
      cases there
    | file =>
      refine ⟨fun paths fetched => ?_, False.elim⟩
      cases fetched
      refine ⟨List.nodup_singleton path, fun q => ⟨fun member => ?_, fun there => ?_⟩⟩
      · cases List.mem_singleton.mp member
        exact .file
      · cases there
        exact List.mem_cons_self
    | dir listed children =>
      cases listed with
      | false => exact ⟨fun paths wrong => (by cases wrong), fun _ => rfl⟩
      | true =>
        have listed := all children rfl
        refine ⟨fun paths fetched => ?_, fun fails => ?_⟩
        · cases fetched
          refine ⟨List.nodup_cons.mpr ⟨fun member => ?_, nodup_prFetchPathsRec wf listed⟩, fun q => ?_⟩
          · obtain ⟨names, entry, same⟩ := (mem_prFetchPathsRec wf listed path).mp member
            obtain ⟨plain, name, rest, rfl, -⟩ := entry.spec wf
            exact subpath_ne path (joined_ne_nil (plain name List.mem_cons_self)) same.symm
          · rw [List.mem_cons, mem_prFetchPathsRec wf listed]
            constructor
            · rintro (rfl | ⟨names, entry, rfl⟩)
              · exact .dir
              · exact .inside entry
            · intro there
              cases there with
              | dir => exact .inl rfl
              | inside entry => exact .inr ⟨_, entry, rfl⟩
        · rcases fails with wrong | unlisted
          · cases wrong
          · exact absurd listed unlisted

/-! ## Commits -/

/-- A log entry that is committed with a copy from outside has had everything below the path listed. -/
def CommitsWhole (listing : CString → Int → RemoteNode) (session : Session) (opts : DumpOptions) (path : CString)
    (revision : Int) : Prop :=
  ∀ (sys : Platform) (t t' : TracedRepo sys) (log : LogRevision) (number : Int) (logs : List LogRevision)
    (table : AprHash ChangedPath) (info : ChangedPath) (source : CString) (sourceRev : Int),
    log.revision = revision → log.changedPaths = some table → table.lookup path = some info →
    (info.action = .add ∨ info.action = .replace) → info.copyfrom = some (source, sourceRev) →
    deltaGetLocalCopyfromPath session.prefixPath source = none →
    pathRepoCommitLog listing session opts log number logs t = .ok t' →
    ∃ paths, prFetchPaths path (listing path revision) = some paths ∧
      ∀ q, q ∈ paths ↔ RemotePath path (listing path revision) q

variable {listing : CString → Int → RemoteNode} {session : Session} {opts : DumpOptions}

theorem pathRepoCommitLog_fetched {sys : Platform} {t t' : TracedRepo sys} {log : LogRevision} {number : Int}
    {logs : List LogRevision} {table : AprHash ChangedPath} {path : CString} {info : ChangedPath} {source : CString}
    {sourceRev : Int} (entries : log.changedPaths = some table) (changed : table.lookup path = some info)
    (adds : info.action = .add ∨ info.action = .replace) (copied : info.copyfrom = some (source, sourceRev))
    (outside : deltaGetLocalCopyfromPath session.prefixPath source = none)
    (done : pathRepoCommitLog listing session opts log number logs t = .ok t') :
    ∃ paths, prFetchPaths path (listing path log.revision) = some paths := by
  rw [pathRepoCommitLog, entries] at done
  obtain ⟨filled, ran, -⟩ := bind_eq_ok.mp done
  have member : path ∈ utilsSort table.keys :=
    (List.perm_insertionSort _ _).mem_iff.mpr (AList.mem_keys.mp (AList.lookup_isSome.mp (by rw [changed]; rfl)))
  obtain ⟨before, after, round⟩ := foldlM_round ran member
  have kept : ¬ (info.action ≠ .add ∧ info.action ≠ .replace) := fun both => adds.elim both.1 both.2
  simp only [changed, commitPath, if_neg kept, copied, commitCopy, outside] at round
  obtain ⟨paths, fetched, -⟩ := bind_eq_ok.mp round
  exact ⟨paths, orError_eq_ok.mp fetched⟩

/-- A fetch is complete or fails, and no partial tree is committed, just when a directory that can be listed has
only such directories below it. -/
theorem fetch_paths_complete {path : CString} {revision : Int} (wf : (listing path revision).WellFormed) :
    (FetchesAll path (listing path revision) ∧ CommitsWhole listing session opts path revision) ↔
      ∀ children, listing path revision = .dir true children → children.AllListed := by
  rw [← fetchesAll_iff wf]
  refine ⟨And.left, fun all => ⟨all, ?_⟩⟩
  rintro sys t t' log number logs table info source sourceRev rfl entries changed adds copied outside done
  obtain ⟨paths, fetched⟩ := pathRepoCommitLog_fetched entries changed adds copied outside done
  exact ⟨paths, fetched, (all.1 paths fetched).2⟩

/-! A directory with a file and a subdirectory. -/

def smallListing (listed : Bool) (path : CString) (_ : Int) : RemoteNode :=
  if path = cstr "a" then .dir true (.file (cstr "f") (.dir (cstr "d") listed (.file (cstr "g") .nil) .nil)) else .missing

theorem smallListing_wellFormed (listed : Bool) : (smallListing listed (cstr "a") 1).WellFormed := by
  exact ⟨by decide, show cstr "f" ∉ [cstr "d"] by decide, by decide, List.not_mem_nil,
    ⟨by decide, List.not_mem_nil, trivial⟩, trivial⟩

theorem fetch_paths_small : prFetchPaths (cstr "a") (smallListing true (cstr "a") 1) =
      some [cstr "a", cstr "a/f", cstr "a/d", cstr "a/d/g"] ∧
    FetchesAll (cstr "a") (smallListing true (cstr "a") 1) := by
  refine ⟨by decide, ((@fetch_paths_complete (smallListing true) ⟨[]⟩ .create _ 1 (smallListing_wellFormed true)).mpr ?_).1⟩
  intro children same
  cases same
  exact ⟨rfl, trivial, trivial⟩

/-- The subdirectory cannot be listed; its file is left out without an error. -/
theorem fetch_paths_swallowed : (smallListing false (cstr "a") 1).ListingFails ∧
    prFetchPaths (cstr "a") (smallListing false (cstr "a") 1) = some [cstr "a", cstr "a/f", cstr "a/d"] ∧
    RemotePath (cstr "a") (smallListing false (cstr "a") 1) (cstr "a/d/g") ∧
    ¬ FetchesAll (cstr "a") (smallListing false (cstr "a") 1) := by
  have fails : (smallListing false (cstr "a") 1).ListingFails := .inr fun listed => by cases listed.1
  have fetched : prFetchPaths (cstr "a") (smallListing false (cstr "a") 1) = some [cstr "a", cstr "a/f", cstr "a/d"] := by decide
  refine ⟨fails, fetched, .inside (.behindFile (.inside .file)), fun all => ?_⟩
  rw [all.2 fails] at fetched
  cases fetched

end Rsvndump
