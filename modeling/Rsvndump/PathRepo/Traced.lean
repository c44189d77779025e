import Rsvndump.Library.Result
import Rsvndump.PathRepo.Store
import Rsvndump.Session

/-! A path storage together with the calls that led to it.

The history is not part of the program. It makes the order of queries and
commits of a whole dump something that can be spoken about; the last field ties
it to the storage, so that no call can be left out or made up.
-/

set_option autoImplicit false

namespace Rsvndump

open Library

structure TracedRepo (sys : Platform) where
  repo : PathRepo
  calls : List PathCall
  ran : pathRepoRun sys calls = some repo

namespace TracedRepo

variable {sys : Platform}

theorem ran_snoc (t : TracedRepo sys) {call : PathCall} {repo : PathRepo}
    (stepped : pathRepoStep sys t.repo call = some repo) :
    pathRepoRun sys (t.calls ++ [call]) = some repo := by
  rw [pathRepoRun, runCalls_snoc, ← pathRepoRun, t.ran, Option.bind_some, stepped]

def create : TracedRepo sys := ⟨pathRepoCreate, [], rfl⟩

def add (t : TracedRepo sys) (path : CString) : TracedRepo sys × Int :=
  (⟨(pathRepoAdd t.repo path).1, t.calls ++ [.add path], t.ran_snoc rfl⟩, (pathRepoAdd t.repo path).2)

def delete (t : TracedRepo sys) (path : CString) : TracedRepo sys :=
  ⟨pathRepoDelete sys t.repo path, t.calls ++ [.delete path], t.ran_snoc rfl⟩

def commit (t : TracedRepo sys) (revision : Int) : TracedRepo sys :=
  ⟨pathRepoCommit sys t.repo revision, t.calls ++ [.commit revision], t.ran_snoc rfl⟩

def discard (t : TracedRepo sys) : Option (TracedRepo sys) :=
  match reverted : pathRepoDiscard sys t.repo with
  | none => none
  | some repo => some ⟨repo, t.calls ++ [.discard], @ran_snoc _ t .discard _ reverted⟩

def tree (t : TracedRepo sys) (revision : Int) : Option (CbSet × TracedRepo sys) :=
  match found : prTree sys t.repo revision with
  | none => none
  | some (tree, repo) =>
      some (tree, ⟨repo, t.calls ++ [.tree revision], t.ran_snoc (by simp [pathRepoStep, found])⟩)

theorem discard_eq_some {t t' : TracedRepo sys} :
    t.discard = some t' ↔
      pathRepoDiscard sys t.repo = some t'.repo ∧ t'.calls = t.calls ++ [.discard] := by
  unfold discard
  split
  · next failed => simp [failed]
  · next repo reverted =>
    obtain ⟨repo', calls', ran'⟩ := t'
    simp [reverted, eq_comm]

theorem tree_eq_some {t t' : TracedRepo sys} {revision : Int} {found : CbSet} :
    t.tree revision = some (found, t') ↔
      prTree sys t.repo revision = some (found, t'.repo) ∧ t'.calls = t.calls ++ [.tree revision] := by
  unfold tree
  split
  · next failed => simp [failed]
  · next tree repo reached =>
    obtain ⟨repo', calls', ran'⟩ := t'
    simp [reached, eq_comm, and_assoc]

/-- A query reaches `pr_tree` only for revisions from 0 on. -/
theorem ran_query (t : TracedRepo sys) {revision : Int} {repo : PathRepo}
    (answered : (revision < 0 ∧ repo = t.repo) ∨
      (¬ revision < 0 ∧ ∃ tree, prTree sys t.repo revision = some (tree, repo))) :
    pathRepoRun sys (if revision < 0 then t.calls else t.calls ++ [.tree revision]) = some repo := by
  rcases answered with ⟨negative, rfl⟩ | ⟨valid, tree, found⟩
  · rw [if_pos negative, t.ran]
  · rw [if_neg valid]
    exact t.ran_snoc (by simp [pathRepoStep, found])

theorem pathRepoExists_reaches {repo repo' : PathRepo} {path : CString} {revision : Int} {found : Bool}
    (answered : pathRepoExists sys repo path revision = some (found, repo')) :
    (revision < 0 ∧ found = false ∧ repo' = repo) ∨
      (¬ revision < 0 ∧ ∃ tree, prTree sys repo revision = some (tree, repo') ∧
        found = cbTreeContains tree.tree path) := by
  unfold pathRepoExists at answered
  split at answered
  · next negative =>
    cases answered
    exact .inl ⟨negative, rfl, rfl⟩
  · next valid =>
    cases reached : prTree sys repo revision with
    | none => simp [reached] at answered
    | some answer =>
      simp only [reached] at answered
      cases answered
      exact .inr ⟨valid, _, rfl, rfl⟩

theorem ran_exists (t : TracedRepo sys) {path : CString} {revision : Int} {found : Bool} {repo : PathRepo}
    (answered : pathRepoExists sys t.repo path revision = some (found, repo)) :
    pathRepoRun sys (if revision < 0 then t.calls else t.calls ++ [.tree revision]) = some repo := by
  apply t.ran_query
  rcases pathRepoExists_reaches answered with ⟨negative, -, same⟩ | ⟨valid, tree, reached, -⟩
  · exact .inl ⟨negative, same⟩
  · exact .inr ⟨valid, tree, reached⟩

def pathExists (t : TracedRepo sys) (path : CString) (revision : Int) : Option (Bool × TracedRepo sys) :=
  match answered : pathRepoExists sys t.repo path revision with
  | none => none
  | some (found, repo) => some (found, ⟨repo, _, t.ran_exists answered⟩)

def checkParent (t : TracedRepo sys) (parent child : CString) (revision : Int) :
    Option (Bool × TracedRepo sys) :=
  match answered : pathRepoCheckParent sys t.repo parent child revision with
  | none => none
  | some (found, repo) => some (found, ⟨repo, _, t.ran_exists answered⟩)

end TracedRepo

/-- A failure keeps the path storage, so that the history of a run that fails can be spoken about. -/
structure Failure (sys : Platform) where
  error : DumpError
  repo : TracedRepo sys

abbrev Result (sys : Platform) (A : Type) := Except (Failure sys) A

/-- A computation that does not use the path storage. -/
def TracedRepo.lift {sys : Platform} {A : Type} (t : TracedRepo sys) : Except DumpError A → Result sys A
  | .ok a => .ok a
  | .error e => .error ⟨e, t⟩

@[simp] theorem TracedRepo.lift_eq_ok {sys : Platform} {A : Type} {t : TracedRepo sys}
    {x : Except DumpError A} {a : A} : t.lift x = .ok a ↔ x = .ok a := by
  cases x <;> simp [TracedRepo.lift]

end Rsvndump
