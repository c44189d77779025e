import Rsvndump.Library.Overwrites
import Rsvndump.PathRepo.Filled

/-! What a log entry does to the paths of the repository, and to the path storage.

Each changed path removes or adds what is below it, those of the parents first.
The storage is filled in the order of the names, which has the same result.
-/

set_option autoImplicit false

namespace Rsvndump

open Library

variable {sys : Platform}

/-! ## Histories -/

/-- The paths of a tree. -/
def treePaths (tree : CbSet) : Set CString := {x | x ∈ tree}

@[simp] theorem mem_treePaths {tree : CbSet} {x : CString} : x ∈ treePaths tree ↔ x ∈ tree := Iff.rfl

/-- The tree holds these paths; its root entry is not looked at. -/
def Agrees (tree : CbSet) (paths : Set CString) : Prop := ∀ q ≠ [], q ∈ tree ↔ q ∈ paths

/-- A number is stored with a tree that holds these paths. -/
def RecordsTree (t : TracedRepo sys) (number : Int) (paths : Set CString) : Prop :=
  ∃ tree, prReconstruct sys t.repo .empty number = some tree ∧ Agrees tree paths

/-- The paths of the repository in each revision. -/
abbrev RepoPaths := Int → Set CString

/-- What is below a directory, relative to it. -/
def subtree (root : CString) (paths : Set CString) : Set CString := {q | q ≠ [] ∧ subpath root q ∈ paths}

/-- What a copy adds: its target and all that is below its source. -/
def copied (source path : CString) (paths : Set CString) : Set CString :=
  {q | q = path ∨ ∃ rel ∈ subtree source paths, q = subpath path rel}

def ChangedPath.removes (info : ChangedPath) : Prop := info.action = .delete ∨ info.action = .replace

def ChangedPath.adds (info : ChangedPath) : Prop := info.action = .add ∨ info.action = .replace

def addedPaths (repo : RepoPaths) (path : CString) : Option (CString × Int) → Set CString
  | none => {path}
  | some (source, revision) => copied source path (repo revision)

/-- What a changed path means. -/
def pathChange (repo : RepoPaths) (path : CString) (info : ChangedPath) : Overwrite CString where
  removed := {q | info.removes ∧ Below path q}
  added := {q | info.adds ∧ q ∈ addedPaths repo path info.copyfrom}

def tableChange (repo : RepoPaths) (table : AprHash ChangedPath) (path : CString) : Overwrite CString :=
  match table.lookup path with
  | none => ⟨∅, ∅⟩
  | some info => pathChange repo path info

/-- No path stands behind one that is below it. -/
def ParentsFirst (order : List CString) : Prop := order.Pairwise fun a b => Below b a → a = b

/-- The changes turn the paths `before` into those `after`; the root itself is not looked at. -/
def Turns (repo : RepoPaths) (table : AprHash ChangedPath) (before after : Set CString) : Prop :=
  ∃ order, order.Perm table.keys ∧ ParentsFirst order ∧
    ∀ q ≠ [], q ∈ Overwrite.run (order.map (tableChange repo table)) before ↔ q ∈ after

/-! ## Orders -/

theorem below_subpath (path rel : CString) : Below path (subpath path rel) := by
  unfold subpath
  split
  · exact below_slash path rel
  · next empty =>
    rw [List.eq_nil_of_length_eq_zero (Nat.eq_zero_of_not_pos empty)]
    exact below_nil _

theorem below_of_mem_addedPaths {repo : RepoPaths} {path q : CString} {copyfrom : Option (CString × Int)}
    (member : q ∈ addedPaths repo path copyfrom) : Below path q := by
  cases copyfrom with
  | none =>
    rw [show q = path from member]
    exact below_refl path
  | some source =>
    obtain rfl | ⟨rel, -, rfl⟩ := member
    · exact below_refl q
    · exact below_subpath path rel

theorem tableChange_touches {repo : RepoPaths} {table : AprHash ChangedPath} {path q : CString}
    (touches : (tableChange repo table path).Touches q) : Below path q := by
  unfold tableChange at touches
  split at touches
  · rcases touches with wrong | wrong <;> exact absurd wrong (Set.notMem_empty q)
  · rcases touches with removed | added
    · exact removed.2
    · exact below_of_mem_addedPaths added.2

/-- All orders with the parents first have the same result. -/
theorem run_parentsFirst (repo : RepoPaths) (table : AprHash ChangedPath) {order order' : List CString}
    (perm : order.Perm order') (first : ParentsFirst order) (first' : ParentsFirst order') (before : Set CString) :
    Overwrite.run (order.map (tableChange repo table)) before =
      Overwrite.run (order'.map (tableChange repo table)) before := by
  refine Overwrite.run_eq_of_perm (tableChange repo table) (fun path q => decide (Below path q)) ?_ ?_ perm
    (fun _ => first.filter _) (fun _ => first'.filter _)
  · intro path q other touches
    exact of_decide_eq_false other (tableChange_touches touches)
  · intro a b q above above' ab ba
    rcases (of_decide_eq_true above).total (of_decide_eq_true above') with below | below
    · exact (ba below).symm
    · exact ab below

theorem strcmpLe_total (a b : CString) : strcmpLe a b = true ∨ strcmpLe b a = true := by
  induction a generalizing b with
  | nil => exact .inl rfl
  | cons c s ih =>
    cases b with
    | nil => exact .inr rfl
    | cons d t =>
      have rest := ih t
      simp only [strcmpLe]
      grind

theorem strcmpLe_trans {a b c : CString} (first : strcmpLe a b = true) (second : strcmpLe b c = true) :
    strcmpLe a c = true := by
  induction a generalizing b c with
  | nil => rfl
  | cons x s ih =>
    cases b with
    | nil => cases first
    | cons y t =>
      cases c with
      | nil => cases second
      | cons z u =>
        simp only [strcmpLe] at *
        grind

theorem strcmpLe_antisymm {a b : CString} (first : strcmpLe a b = true) (second : strcmpLe b a = true) : a = b := by
  induction a generalizing b with
  | nil =>
    cases b with
    | nil => rfl
    | cons y t => cases second
  | cons x s ih =>
    cases b with
    | nil => cases first
    | cons y t =>
      have same : x.byte = y.byte := by
        simp only [strcmpLe] at first second
        grind
      have chars : x = y := by
        cases x
        cases y
        cases same
        rfl
      subst chars
      simp only [strcmpLe, UInt8.lt_irrefl, if_false] at first second
      rw [ih first second]

theorem strcmpLe_of_isPrefix {a b : CString} (pre : a <+: b) : strcmpLe a b = true := by
  obtain ⟨rest, rfl⟩ := pre
  induction a with
  | nil => rfl
  | cons c s ih => simpa [strcmpLe] using ih

/-- The order of the names has the parents first. -/
theorem parentsFirst_utilsSort (paths : List CString) : ParentsFirst (utilsSort paths) := by
  have total : Std.Total fun a b : CString => strcmpLe a b = true := ⟨strcmpLe_total⟩
  have trans : IsTrans CString fun a b => strcmpLe a b = true := ⟨fun _ _ _ => strcmpLe_trans⟩
  have sorted := List.pairwise_insertionSort (fun a b : CString => strcmpLe a b = true) paths
  refine sorted.imp fun le below => ?_
  exact strcmpLe_antisymm le (strcmpLe_of_isPrefix (Below.isPrefix below))

theorem Turns.utilsSort {repo : RepoPaths} {table : AprHash ChangedPath} {before after : Set CString}
    (turns : Turns repo table before after) (q : CString) (visible : q ≠ []) :
    q ∈ Overwrite.run ((utilsSort table.keys).map (tableChange repo table)) before ↔ q ∈ after := by
  obtain ⟨order, perm, first, result⟩ := turns
  have sorted : order.Perm (Rsvndump.utilsSort table.keys) := perm.trans (List.perm_insertionSort _ _).symm
  rw [← result q visible, run_parentsFirst repo table sorted first (parentsFirst_utilsSort table.keys)]

end Rsvndump
