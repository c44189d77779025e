import Rsvndump.Delta.Calls
import Rsvndump.Library.PathNames
import Rsvndump.PathRepo.Course

/-! Copy information of the nodes below a copy.

A node below a copied directory is part of the copy when its source is in the
tree of the copied revision. The path of the source is checked level by level.
-/

set_option autoImplicit false

namespace Rsvndump

open Library

variable {sys : Platform} {baton : DeBaton}

/-! ## The walk over the levels -/

/-- A round of the walk: the parent and the child asked for, the restored buffer and the next start. -/
def nextLevel (stop : Nat) (buffer : Bytes) (base : Nat) : Option (CString × CString × Bytes × Nat) :=
  (strchr buffer base).map fun split =>
    let cut := buffer.set split 0
    let base := split + 1
    let tmp := (strchr cut base).getD (base + (CString.ofBytes (cut.drop base)).length)
    let cut := cut.set tmp 0
    let restored := cut.set split slash.byte
    (CString.ofBytes cut, CString.ofBytes (cut.drop base),
      if tmp < stop then restored.set tmp slash.byte else restored, base)

/-- What the walk asks for as long as the answers are positive. -/
def queryLoop (stop : Nat) : Nat → Bytes → Nat → List (CString × CString)
  | 0, _, _ => []
  | fuel + 1, buffer, base =>
      match nextLevel stop buffer base with
      | none => []
      | some (parent, child, buffer, base) => (parent, child) :: queryLoop stop fuel buffer base

/-- Asks for parents and children in turn up to the first negative answer. -/
def checkLevels (revision : Int) : List (CString × CString) → DeltaState sys → Result sys (Bool × DeltaState sys)
  | [], st => .ok (true, st)
  | (parent, child) :: rest, st =>
      match st.checkParent parent child revision with
      | none => .error (st.fail .propagateCopy)
      | some (false, st) => .ok (false, st)
      | some (true, st) => checkLevels revision rest st

theorem propagateLoop_eq (revision : Int) (stop fuel : Nat) (buffer : Bytes) (base : Nat) (st : DeltaState sys) :
    propagateLoop revision stop fuel buffer base st = checkLevels revision (queryLoop stop fuel buffer base) st := by
  induction fuel generalizing buffer base st with
  | zero => rfl
  | succ fuel ih =>
    rw [propagateLoop, queryLoop, nextLevel]
    cases strchr buffer base with
    | none => rfl
    | some split =>
      simp only [Option.map_some, checkLevels]
      generalize st.checkParent _ _ revision = answer
      rcases answer with _ | ⟨_ | _, st'⟩
      · rfl
      · rfl
      · exact ih _ _ st'

/-! ## Levels of a path -/

/-- The pairs of a directory and the name in it on the way down from `front`. -/
def levels (front : CString) : List CString → List (CString × CString)
  | [] => []
  | name :: rest => (front, name) :: levels (front ++ slash :: name) rest

/-- The levels of a path with these names. -/
def pathLevels : List CString → List (CString × CString)
  | [] => []
  | name :: rest => levels name rest

theorem strchr_joined (front : Bytes) {name : CString} (rest : List CString) (plain : slash ∉ name) (tail : Bytes) :
    strchr (front ++ (CString.bytes (joined (name :: rest)) ++ 0 :: tail)) front.length =
      if rest = [] then none else some (front.length + name.length) := by
  have text : CString.ofBytes ((front ++ (CString.bytes (joined (name :: rest)) ++ 0 :: tail)).drop front.length) =
      joined (name :: rest) := by
    rw [List.drop_left' rfl]
    exact CString.ofBytes_append_zero _ _
  simp only [strchr, text]
  cases rest with
  | nil => simp [joined, plain]
  | cons next rest =>
    rw [joined_cons name (List.cons_ne_nil _ _), if_pos (by simp), if_neg (List.cons_ne_nil _ _),
      List.idxOf_append_of_notMem plain, List.idxOf_cons_self]
    simp

theorem set_behind (front : Bytes) (old new : UInt8) (tail : Bytes) {i : Nat} (behind : i = front.length) :
    (front ++ old :: tail).set i new = front ++ new :: tail := by
  subst behind
  rw [List.set_append_right _ _ (Nat.le_refl _)]
  simp

/-- A round cuts the name behind the next separator out of the text and puts the separators back. -/
theorem nextLevel_joined {front name next : CString} {rest : List CString} (plain : slash ∉ name) (plain' : slash ∉ next)
    {stop : Nat} (ends : stop = (front ++ joined (name :: next :: rest)).length) :
    nextLevel stop (CString.bytes (front ++ joined (name :: next :: rest)) ++ [0]) front.length =
      some (front ++ name, next, CString.bytes (front ++ joined (name :: next :: rest)) ++ [0],
        front.length + name.length + 1) := by
  have whole : CString.bytes (front ++ joined (name :: next :: rest)) ++ [0] =
      CString.bytes (front ++ name) ++ slash.byte :: (CString.bytes (joined (next :: rest)) ++ [0]) := by
    simp [joined, CString.bytes]
  have first : strchr (CString.bytes (front ++ joined (name :: next :: rest)) ++ [0]) front.length =
      some (front.length + name.length) := by
    have found := strchr_joined (CString.bytes front) (next :: rest) plain []
    rw [if_neg (List.cons_ne_nil _ _), CString.length_bytes] at found
    rw [← found, CString.bytes, List.map_append, List.append_assoc]
    rfl
  have size : front.length + name.length = (CString.bytes (front ++ name)).length := by simp
  have cut : (CString.bytes (front ++ joined (name :: next :: rest)) ++ [0]).set (front.length + name.length) 0 =
      (CString.bytes (front ++ name) ++ [0]) ++ (CString.bytes (joined (next :: rest)) ++ 0 :: []) := by
    rw [whole, set_behind _ _ _ _ size]
    simp
  have second : strchr ((CString.bytes (front ++ name) ++ [0]) ++ (CString.bytes (joined (next :: rest)) ++ 0 :: []))
      (front.length + name.length + 1) = if rest = [] then none else some (front.length + name.length + 1 + next.length) := by
    have found := strchr_joined (CString.bytes (front ++ name) ++ [0]) rest plain' []
    have edge : (CString.bytes (front ++ name) ++ [0]).length = front.length + name.length + 1 := by simp
    rwa [edge] at found
  have dropped : ∀ tail : Bytes, ((CString.bytes (front ++ name) ++ [0]) ++ tail).drop (front.length + name.length + 1) = tail :=
    fun tail => List.drop_left' (by simp)
  have closed : ∀ (old new : UInt8) (tail : Bytes),
      ((CString.bytes (front ++ name) ++ [0]) ++ (CString.bytes next ++ old :: tail)).set
          (front.length + name.length + 1 + next.length) new =
        (CString.bytes (front ++ name) ++ [0]) ++ (CString.bytes next ++ new :: tail) := by
    intro old new tail
    rw [← List.append_assoc, set_behind _ _ _ _ (by simp [Nat.add_assoc, Nat.add_comm 1]), List.append_assoc]
  have reopened : ∀ tail : Bytes, ((CString.bytes (front ++ name) ++ [0]) ++ tail).set (front.length + name.length) slash.byte =
      (CString.bytes (front ++ name) ++ [slash.byte]) ++ tail := by
    intro tail
    rw [List.append_assoc, List.singleton_append, set_behind _ _ _ _ size]
    simp
  have last : ∀ (old new : UInt8) (tail : Bytes),
      ((CString.bytes (front ++ name) ++ [slash.byte]) ++ (CString.bytes next ++ old :: tail)).set
          (front.length + name.length + 1 + next.length) new =
        (CString.bytes (front ++ name) ++ [slash.byte]) ++ (CString.bytes next ++ new :: tail) := by
    intro old new tail
    rw [← List.append_assoc, set_behind _ _ _ _ (by simp [Nat.add_assoc, Nat.add_comm 1]), List.append_assoc]
  simp only [nextLevel, first, Option.map_some, cut, second, dropped]
  -- the end of the name is the end of the text or the next separator
  cases rest with
  | nil =>
    have atStop : ¬ front.length + name.length + 1 + next.length < stop := by
      rw [ends]
      simp [joined]
      omega
    simp only [joined, CString.ofBytes_append_zero, if_true, Option.getD_none, closed, dropped, reopened, if_neg atStop]
    rw [List.append_assoc (CString.bytes (front ++ name)), List.singleton_append, CString.ofBytes_append_zero]
    simp [CString.bytes]
  | cons after rest =>
    have inside : front.length + name.length + 1 + next.length < stop := by
      rw [ends]
      simp [joined]
      omega
    have split : CString.bytes (joined (next :: after :: rest)) ++ [0] =
        CString.bytes next ++ slash.byte :: (CString.bytes (joined (after :: rest)) ++ [0]) := by
      simp [joined, CString.bytes]
    simp only [split, if_neg (List.cons_ne_nil after rest), Option.getD_some, closed, dropped, reopened, if_pos inside, last]
    rw [List.append_assoc (CString.bytes (front ++ name)), List.singleton_append, CString.ofBytes_append_zero,
      CString.ofBytes_append_zero]
    simp [CString.bytes, joined]

/-- The walk asks for the levels of the path in its buffer, which it leaves as it was after each round. -/
theorem queryLoop_joined {front name : CString} {rest : List CString} (plain : ∀ n ∈ name :: rest, slash ∉ n) {stop fuel : Nat}
    (enough : rest.length ≤ fuel) (ends : stop = (front ++ joined (name :: rest)).length) :
    queryLoop stop fuel (CString.bytes (front ++ joined (name :: rest)) ++ [0]) front.length = levels (front ++ name) rest := by
  induction rest generalizing front name fuel with
  | nil =>
    cases fuel with
    | zero => rfl
    | succ fuel =>
      have ended' := strchr_joined (CString.bytes front) [] (plain name List.mem_cons_self) []
      rw [if_pos rfl, CString.length_bytes] at ended'
      have ended : strchr (CString.bytes (front ++ joined [name]) ++ [0]) front.length = none := by
        rw [← ended', CString.bytes, List.map_append, List.append_assoc]
        rfl
      rw [queryLoop, nextLevel, ended]
      rfl
  | cons next rest ih =>
    cases fuel with
    | zero => exact absurd enough (by simp)
    | succ fuel =>
      have whole : front ++ joined (name :: next :: rest) = (front ++ name ++ [slash]) ++ joined (next :: rest) := by
        simp [joined]
      rw [queryLoop, nextLevel_joined (plain name List.mem_cons_self) (plain next (by simp)) ends]
      simp only [levels]
      congr 1
      rw [whole, show front.length + name.length + 1 = (front ++ name ++ [slash]).length by simp [Nat.add_assoc],
        ih (fun n member => plain n (List.mem_cons_of_mem name member)) (by simpa using enough) (by rw [ends, whole])]
      simp

/-! ## The answers -/

/-- The storage has `tree` for the revision. -/
def Answers (t : TracedRepo sys) (revision : Int) (tree : CbSet) : Prop := 0 ≤ revision ∧ ∃ t', t.tree revision = some (tree, t')

/-- A query is answered again in the same way. -/
theorem Answers.tree {t t' : TracedRepo sys} {revision : Int} {tree : CbSet} (valid : 0 ≤ revision)
    (answered : t.tree revision = some (tree, t')) : Answers t' revision tree := by
  obtain ⟨reached, -⟩ := TracedRepo.tree_eq_some.mp answered
  have again : ∃ repo, prTree sys t'.repo revision = some (tree, repo) := by
    rcases prTree_cases reached with ⟨hit, same⟩ | ⟨miss, rebuilt, same⟩
    · exact ⟨t'.repo, by rw [same, prTree, hit]⟩
    · have rebuilt' : prReconstruct sys t'.repo .empty revision = some tree := by
        rw [← rebuilt]
        exact prReconstruct_congr (by rw [same]) _ _
      cases hit : t'.repo.cache.find? revision with
      | none => exact ⟨_, by rw [prTree, hit]; simp [rebuilt']; rfl⟩
      | some found =>
        obtain ⟨entry, first, rfl⟩ := Option.map_eq_some_iff.mp hit
        have key : entry.1 = revision := by simpa using List.find?_some first
        have member := List.mem_of_find?_eq_some first
        rw [same] at member
        rcases List.mem_or_eq_of_mem_set member with old | new
        · -- the entry would have been found before
          have kept : t.repo.cache.find? revision ≠ none := by
            simp only [Fifo.find?, ne_eq, Option.map_eq_none_iff, List.find?_eq_none, not_forall]
            exact ⟨entry, old, by simp [key]⟩
          exact absurd miss kept
        · exact ⟨t'.repo, by rw [prTree, hit, new]⟩
  obtain ⟨repo, again⟩ := again
  exact ⟨valid, ⟨repo, t'.calls ++ [.tree revision], t'.ran_snoc (by simp [pathRepoStep, again])⟩,
    TracedRepo.tree_eq_some.mpr ⟨again, rfl⟩⟩

theorem Answers.pathExists {t : TracedRepo sys} {revision : Int} {tree : CbSet} (answers : Answers t revision tree)
    (path : CString) : ∃ t', t.pathExists path revision = some (decide (path ∈ tree), t') ∧ Answers t' revision tree := by
  obtain ⟨valid, t₁, reached⟩ := answers
  have found : pathRepoExists sys t.repo path revision = some (cbTreeContains tree.tree path, t₁.repo) := by
    rw [pathRepoExists, if_neg (by omega), (TracedRepo.tree_eq_some.mp reached).1]
    rfl
  have contains : cbTreeContains tree.tree path = decide (path ∈ tree) := by
    rw [Bool.eq_iff_iff, CbSet.contains_iff, decide_eq_true_eq]
  unfold TracedRepo.pathExists
  split
  · next failed =>
    rw [failed] at found
    cases found
  · next found' repo answered =>
    rw [answered] at found
    cases found
    have same : (⟨_, _, t.ran_exists answered⟩ : TracedRepo sys) = t₁ :=
      TracedRepo.eq_of rfl (by rw [(TracedRepo.tree_eq_some.mp reached).2]; exact if_neg (by omega))
    rw [same, contains]
    exact ⟨t₁, rfl, .tree valid reached⟩

/-- The walk gets through just when all levels are in the tree. -/
theorem checkLevels_answers {revision : Int} {tree : CbSet} (pairs : List (CString × CString)) (st : DeltaState sys)
    (answers : Answers st.repo revision tree) :
    ∃ st', checkLevels revision pairs st = .ok (decide (∀ pair ∈ pairs, pair.1 ++ slash :: pair.2 ∈ tree), st') := by
  induction pairs generalizing st with
  | nil => exact ⟨st, by simp [checkLevels]⟩
  | cons pair pairs ih =>
    obtain ⟨parent, child⟩ := pair
    obtain ⟨t', found, again⟩ := answers.pathExists (parent ++ slash :: child)
    have asked : st.checkParent parent child revision =
        some (decide (parent ++ slash :: child ∈ tree), { st with repo := t' }) := by
      rw [DeltaState.checkParent, TracedRepo.checkParent_eq, found]
      rfl
    rw [checkLevels, asked]
    by_cases member : parent ++ slash :: child ∈ tree
    · obtain ⟨st', checked⟩ := ih { st with repo := t' } again
      refine ⟨st', ?_⟩
      simp only [decide_eq_true member]
      rw [checked]
      simp [member]
    · refine ⟨{ st with repo := t' }, ?_⟩
      simp only [decide_eq_false member]
      simp [member]

/-! ## Trees -/

/-- With a path, its parent is in the tree. -/
def ParentClosed (tree : CbSet) : Prop := ∀ x y, x ++ slash :: y ∈ tree → x ∈ tree

/-- All levels are there with the last one. -/
theorem levels_mem_iff {tree : CbSet} (closed : ParentClosed tree) (front : CString) {rest : List CString} (more : rest ≠ []) :
    (∀ pair ∈ levels front rest, pair.1 ++ slash :: pair.2 ∈ tree) ↔ front ++ slash :: joined rest ∈ tree := by
  induction rest generalizing front with
  | nil => exact absurd rfl more
  | cons name rest ih =>
    simp only [levels, List.forall_mem_cons]
    by_cases last : rest = []
    · subst last
      simp [levels, joined]
    · rw [ih (front ++ slash :: name) last, joined_cons name last]
      have same : front ++ slash :: (name ++ slash :: joined rest) = front ++ slash :: name ++ slash :: joined rest := by simp
      rw [same]
      exact and_iff_right_of_imp (closed _ _)

/-! ## Propagation -/

/-- The child is part of the copy just when its source is in the tree; nothing else of it changes. -/
def CopyDecided (baton : DeBaton) (parent : DeNode) (above : List DeNode) (child : DeNode) (st : DeltaState sys)
    (tree : CbSet) (source : CString) : Prop :=
  ∃ st', deltaPropagateCopy baton parent above child st =
    .ok ({ child with cpInfo := if source ∈ tree then .copy else .none }, st')

/-- The walk for `relpath` below `source` asks for the levels of the path with these names. -/
def QueriesLevels (source relpath : CString) (names : List CString) : Prop :=
  let checkPath := CString.bytes (source ++ slash :: relpath)
  queryLoop checkPath.length checkPath.length (checkPath ++ [0]) 0 = pathLevels names

theorem queriesLevels_cons {name : CString} {rest : List CString} (plain : ∀ n ∈ name :: rest, slash ∉ n) :
    queryLoop (CString.bytes (joined (name :: rest))).length (CString.bytes (joined (name :: rest))).length
      (CString.bytes (joined (name :: rest)) ++ [0]) 0 = levels name rest := by
  rw [CString.length_bytes]
  exact @queryLoop_joined [] name rest plain _ _ (length_le_joined name rest) rfl

theorem queriesLevels_append {source below : List CString} (plain : ∀ n ∈ source ++ below, PlainName n)
    (some : source ≠ []) (more : below ≠ []) : QueriesLevels (joined source) (joined below) (source ++ below) := by
  cases source with
  | nil => exact absurd rfl some
  | cons name rest =>
    rw [QueriesLevels, ← joined_append some more]
    exact queriesLevels_cons fun n member => (plain n member).2

theorem queriesLevels_root {below : List CString} (plain : ∀ n ∈ below, PlainName n) (more : below ≠ []) :
    queryLoop (CString.bytes (slash :: joined below)).length (CString.bytes (slash :: joined below)).length
      (CString.bytes (slash :: joined below) ++ [0]) 0 = levels [] below := by
  rw [show slash :: joined below = joined ([] :: below) by rw [joined_cons [] more]; rfl]
  apply queriesLevels_cons
  intro n member
  rcases List.mem_cons.mp member with rfl | member
  · exact List.not_mem_nil
  · exact (plain n member).2

theorem length_levels (front : CString) (names : List CString) : (levels front names).length = names.length := by
  induction names generalizing front with
  | nil => rfl
  | cons name rest ih => rw [levels, List.length_cons, ih, List.length_cons]

/-- Below the root as the source, each level is asked for with a separator in front of it. -/
theorem not_queriesLevels_root {below : List CString} (plain : ∀ n ∈ below, PlainName n) (more : below ≠ []) :
    ¬ QueriesLevels [] (joined below) below := by
  intro asked
  have lengths := congrArg List.length ((queriesLevels_root plain more).symm.trans asked)
  rw [length_levels] at lengths
  cases below with
  | nil => exact more rfl
  | cons name rest =>
    rw [pathLevels, length_levels, List.length_cons] at lengths
    omega

theorem skipSlashes_joined {names : List CString} (plain : ∀ n ∈ names, PlainName n) :
    skipSlashes (slash :: joined names) = joined names := by
  rw [skipSlashes, List.dropWhile_cons_of_pos (by simp)]
  have first := head_joined plain
  cases text : joined names with
  | nil => rfl
  | cons c rest => exact List.dropWhile_cons_of_neg (by simpa [text] using first)

/-- With a walk that has ended, the decision is right when the walk and the tree agree. -/
theorem copyDecided_iff {parent child : DeNode} {above : List DeNode} {st st' : DeltaState sys} {tree : CbSet} {source : CString}
    {found : Bool} (ran : deltaPropagateCopy baton parent above child st =
      .ok ({ child with cpInfo := if found then .copy else .none }, st')) :
    CopyDecided baton parent above child st tree source ↔ (found = true ↔ source ∈ tree) := by
  rw [CopyDecided, ran]
  constructor
  · rintro ⟨st'', same⟩
    have info : (if found = true then CpInfo.copy else .none) = if source ∈ tree then .copy else .none :=
      congrArg (fun result => result.1.cpInfo) (Except.ok.inj same)
    by_cases member : source ∈ tree <;> cases found <;> simp_all
  · intro agree
    exact ⟨st', by simp only [agree]⟩

section Propagation

variable {parent copied child : DeNode} {above : List DeNode} {st : DeltaState sys} {path : CString} {original : Int}
  {source below : List CString} {tree : CbSet}

theorem deltaPropagateCopy_eq (copy : parent.cpInfo = .copy)
    (nearest : copiedParent (parent :: above) = some (copied, path, original))
    (local' : deltaGetLocalCopyfromPath baton.session.prefixPath path = some (joined source))
    (under : Below parent.path child.path) (place : child.path = copied.path ++ slash :: joined below)
    (plain : ∀ n ∈ below, PlainName n) :
    deltaPropagateCopy baton parent above child st = (do
      let checkPath := CString.bytes (joined source ++ slash :: joined below)
      let (found, st) ← checkLevels (deltaGetLocalCopyfromRev original baton.opts baton.logs)
        (queryLoop checkPath.length checkPath.length (checkPath ++ [0]) 0) st
      return ({ child with cpInfo := if found then .copy else .none }, st)) := by
  have relpath : skipSlashes (child.path.drop copied.path.length) = joined below := by
    rw [place, List.drop_left' rfl, skipSlashes_joined plain]
  simp only [deltaPropagateCopy, copy, ne_eq, not_true_eq_false, if_false, under.isPrefix, nearest, local', relpath,
    propagateLoop_eq]

/-- Below a copy of the root nothing is found. -/
theorem deltaPropagateCopy_root (copy : parent.cpInfo = .copy)
    (nearest : copiedParent (parent :: above) = some (copied, path, original))
    (local' : deltaGetLocalCopyfromPath baton.session.prefixPath path = some (joined []))
    (under : Below parent.path child.path) (place : child.path = copied.path ++ slash :: joined below)
    (plain : ∀ n ∈ below, PlainName n) (more : below ≠ [])
    (answers : Answers st.repo (deltaGetLocalCopyfromRev original baton.opts baton.logs) tree)
    (relative : ∀ x ∈ tree, x.head? ≠ some slash) :
    ∃ st', deltaPropagateCopy baton parent above child st = .ok ({ child with cpInfo := .none }, st') := by
  have ran := @deltaPropagateCopy_eq sys _ _ _ _ _ st _ _ _ _ copy nearest local' under place plain
  obtain ⟨st', checked⟩ := checkLevels_answers (levels [] below) st answers
  have missing : ¬ ∀ pair ∈ levels [] below, pair.1 ++ slash :: pair.2 ∈ tree := by
    intro found
    cases below with
    | nil => exact more rfl
    | cons name rest => exact relative _ (found ([], name) List.mem_cons_self) rfl
  rw [decide_eq_false missing] at checked
  have asked := @queriesLevels_root below plain more
  simp only [joined, List.nil_append, asked, checked, ok_bind] at ran
  exact ⟨st', ran⟩

/-- Below any other copy the source decides. -/
theorem deltaPropagateCopy_named (copy : parent.cpInfo = .copy)
    (nearest : copiedParent (parent :: above) = some (copied, path, original))
    (local' : deltaGetLocalCopyfromPath baton.session.prefixPath path = some (joined source)) (named : source ≠ [])
    (under : Below parent.path child.path) (place : child.path = copied.path ++ slash :: joined below)
    (plain : ∀ n ∈ source ++ below, PlainName n) (more : below ≠ [])
    (answers : Answers st.repo (deltaGetLocalCopyfromRev original baton.opts baton.logs) tree) (closed : ParentClosed tree) :
    CopyDecided baton parent above child st tree (joined (source ++ below)) := by
  have ran := @deltaPropagateCopy_eq sys _ _ _ _ _ st _ _ _ _ copy nearest local' under place
    fun n member => plain n (List.mem_append_right _ member)
  obtain ⟨st', checked⟩ := checkLevels_answers (pathLevels (source ++ below)) st answers
  have queries := queriesLevels_append plain named more
  have all : (∀ pair ∈ pathLevels (source ++ below), pair.1 ++ slash :: pair.2 ∈ tree) ↔ joined (source ++ below) ∈ tree := by
    cases source with
    | nil => exact absurd rfl named
    | cons name rest =>
      have rest' : rest ++ below ≠ [] := by simp [more]
      rw [List.cons_append, pathLevels, levels_mem_iff closed name rest', joined_cons name rest']
  simp only [QueriesLevels] at queries
  simp only [queries, checked, ok_bind] at ran
  exact (copyDecided_iff ran).mpr (decide_eq_true_iff.trans all)

/-- The source of a copy decides, unless it is the root: below the root nothing is found, and the walk
asks for other paths. -/
theorem deltaPropagateCopy_source (copy : parent.cpInfo = .copy)
    (nearest : copiedParent (parent :: above) = some (copied, path, original))
    (local' : deltaGetLocalCopyfromPath baton.session.prefixPath path = some (joined source))
    (under : Below parent.path child.path) (place : child.path = copied.path ++ slash :: joined below)
    (plain : ∀ n ∈ source ++ below, PlainName n) (more : below ≠ [])
    (answers : Answers st.repo (deltaGetLocalCopyfromRev original baton.opts baton.logs) tree)
    (closed : ParentClosed tree) (relative : ∀ x ∈ tree, x.head? ≠ some slash) :
    ((CopyDecided baton parent above child st tree (joined (source ++ below)) ∧
        QueriesLevels (joined source) (joined below) (source ++ below)) ↔ source ≠ []) ∧
      (CopyDecided baton parent above child st tree (joined (source ++ below)) ↔
        ¬ (source = [] ∧ joined below ∈ tree)) := by
  by_cases root : source = []
  · subst root
    obtain ⟨st', ran⟩ := deltaPropagateCopy_root copy nearest local' under place plain more answers relative
    have decided := @copyDecided_iff sys baton _ _ _ _ _ tree (joined below) false ran
    constructor
    · exact iff_of_false (fun both => not_queriesLevels_root plain more both.2) (not_not_intro rfl)
    · simpa using decided
  · have decided := deltaPropagateCopy_named copy nearest local' root under place plain more answers closed
    exact ⟨iff_of_true ⟨decided, queriesLevels_append plain root more⟩ root, iff_of_true decided fun both => root both.1⟩

end Propagation

/-! The root copied to `b` when it holds `a`, and `b/a` visited below the copy. -/

def rootCopyBaton : DeBaton :=
  ⟨⟨[]⟩, .create, [.dummy, ⟨1, none, none, none, some ∅⟩, ⟨2, none, none, none, some ∅⟩], ⟨2, none, none, none, some ∅⟩, 2⟩

def copiedRoot : DeNode :=
  { deltaCreateNodeNoParent (cstr "b") .dir .add with copyfrom := some ([slash], 1), cpInfo := .copy }

def belowRoot : DeNode := deltaCreateNode (cstr "b/a") copiedRoot .dir .modify

def directoryRepo : TracedRepo .plain := (TracedRepo.create.add (cstr "a")).1.commit 1

def oneDirectory : DeltaState .plain := { (emptyDelta : DeltaState .plain) with repo := directoryRepo }

def directoryTree : CbSet := CbSet.empty.insert (cstr "a")

theorem directoryRepo_answers : Answers directoryRepo 1 directoryTree := by
  obtain ⟨found, reached⟩ : ∃ repo, prTree .plain directoryRepo.repo 1 = some (directoryTree, repo) := ⟨_, rfl⟩
  exact ⟨by decide, ⟨found, _, directoryRepo.ran_snoc (by simp [pathRepoStep, reached])⟩,
    TracedRepo.tree_eq_some.mpr ⟨reached, rfl⟩⟩

theorem mem_directoryTree {x : CString} : x ∈ directoryTree ↔ x = cstr "a" := by
  simp [directoryTree]

theorem parentClosed_of_names {tree : CbSet} {names : List CString} (listed : ∀ x, x ∈ tree ↔ x ∈ names)
    (closed : ∀ x ∈ names, ∀ n < x.length, x[n]? = some slash → x.take n ∈ names) : ParentClosed tree := by
  intro x y member
  rw [listed] at member ⊢
  have parent := closed _ member x.length (by simp) (by simp)
  rwa [List.take_left] at parent

theorem directoryTree_closed : ParentClosed directoryTree :=
  @parentClosed_of_names _ [cstr "a"] (fun x => by rw [mem_directoryTree, List.mem_singleton]) (by decide)

/-- The source `a` of the child is there, but the child does not become part of the copy. -/
theorem copiedRoot_child : ParentClosed directoryTree ∧ cstr "a" ∈ directoryTree ∧ Answers oneDirectory.repo 1 directoryTree ∧
    deltaGetLocalCopyfromPath rootCopyBaton.session.prefixPath [slash] = some (joined []) ∧
    deltaGetLocalCopyfromRev 1 rootCopyBaton.opts rootCopyBaton.logs = 1 ∧
    ¬ CopyDecided rootCopyBaton copiedRoot [] belowRoot oneDirectory directoryTree (joined ([] ++ [cstr "a"])) := by
  refine ⟨directoryTree_closed, by decide, directoryRepo_answers, by decide, by decide, ?_⟩
  obtain ⟨st', ran⟩ : ∃ st', deltaPropagateCopy rootCopyBaton copiedRoot [] belowRoot oneDirectory =
      .ok ({ belowRoot with cpInfo := .none }, st') := ⟨_, rfl⟩
  rintro ⟨st'', decided⟩
  rw [ran] at decided
  have info := congrArg (fun result => result.1.cpInfo) (Except.ok.inj decided)
  rw [if_pos (show joined ([] ++ [cstr "a"]) ∈ directoryTree by decide)] at info
  cases info

/-! The directory `a` copied to `b` when it holds `a/c` and `a/c/d`; `b/c/d` and `b/e` are visited below the copy. -/

def copiedDirectory : DeNode := { copiedRoot with copyfrom := some (cstr "/a", 1) }

def copiedSubdirectory : DeNode := { deltaCreateNode (cstr "b/c") copiedDirectory .dir .modify with cpInfo := .copy }

def nestedNames : List CString := [cstr "a", cstr "a/c", cstr "a/c/d"]

def nestedRepo : TracedRepo .plain :=
  (nestedNames.foldl (fun t name => (t.add name).1) TracedRepo.create).commit 1

def nestedDelta : DeltaState .plain := { (emptyDelta : DeltaState .plain) with repo := nestedRepo }

def nestedTree : CbSet := nestedNames.foldl CbSet.insert .empty

theorem nestedRepo_answers : Answers nestedRepo 1 nestedTree := by
  obtain ⟨found, reached⟩ : ∃ repo, prTree .plain nestedRepo.repo 1 = some (nestedTree, repo) := ⟨_, rfl⟩
  exact ⟨by decide, ⟨found, _, nestedRepo.ran_snoc (by simp [pathRepoStep, reached])⟩,
    TracedRepo.tree_eq_some.mpr ⟨reached, rfl⟩⟩

theorem mem_nestedTree {x : CString} : x ∈ nestedTree ↔ x ∈ nestedNames := by
  simp [nestedTree, nestedNames, or_comm, or_assoc]

theorem nestedTree_closed : ParentClosed nestedTree := parentClosed_of_names (fun _ => mem_nestedTree) (by decide)

theorem deltaPropagateCopy_source_children :
    (CopyDecided rootCopyBaton copiedSubdirectory [copiedDirectory]
        (deltaCreateNode (cstr "b/c/d") copiedSubdirectory .dir .modify) nestedDelta nestedTree (cstr "a/c/d") ∧
      cstr "a/c/d" ∈ nestedTree ∧ QueriesLevels (cstr "a") (cstr "c/d") [cstr "a", cstr "c", cstr "d"]) ∧
    (CopyDecided rootCopyBaton copiedDirectory [] (deltaCreateNode (cstr "b/e") copiedDirectory .dir .modify) nestedDelta
        nestedTree (cstr "a/e") ∧
      cstr "a/e" ∉ nestedTree ∧ QueriesLevels (cstr "a") (cstr "e") [cstr "a", cstr "e"]) := by
  have relative : ∀ x ∈ nestedTree, x.head? ≠ some slash := by
    have all : ∀ x ∈ nestedNames, x.head? ≠ some slash := by decide
    exact fun x member => all x (mem_nestedTree.mp member)
  obtain ⟨copied, levels⟩ := (@deltaPropagateCopy_source .plain rootCopyBaton copiedSubdirectory copiedDirectory
    (deltaCreateNode (cstr "b/c/d") copiedSubdirectory .dir .modify) [copiedDirectory] nestedDelta _ 1 [cstr "a"]
    [cstr "c", cstr "d"] nestedTree rfl rfl (by decide) (by decide) rfl (by decide) (by decide) nestedRepo_answers
    nestedTree_closed relative).1.mpr (by decide)
  obtain ⟨missed, levels'⟩ := (@deltaPropagateCopy_source .plain rootCopyBaton copiedDirectory copiedDirectory
    (deltaCreateNode (cstr "b/e") copiedDirectory .dir .modify) [] nestedDelta _ 1 [cstr "a"] [cstr "e"] nestedTree rfl rfl
    (by decide) (by decide) rfl (by decide) (by decide) nestedRepo_answers nestedTree_closed relative).1.mpr (by decide)
  exact ⟨⟨copied, by decide, levels⟩, missed, by decide, levels'⟩

end Rsvndump
