import Rsvndump.Delta.Closing
import Rsvndump.Delta.EditedTrees
import Rsvndump.PathRepo.CopiedTrees

/-! Edits of path trees.

The calls of an editor on a directory delete, add or open its entries, and those on an
added or opened directory come at once. A file is an entry without entries of its own.
-/

set_option autoImplicit false

namespace Rsvndump

open Library

/-! ## Path trees -/

/-- A path of one or more names. -/
def PlainPath (path : CString) : Prop := ∃ names, names ≠ [] ∧ (∀ name ∈ names, PlainName name) ∧ path = joined names

/-- The paths of a repository: with a path, the directory it is in. The root is not among them. -/
structure PathTree (paths : Set CString) : Prop where
  plain : ∀ q ∈ paths, PlainPath q
  closed : ∀ front rest, front ++ slash :: rest ∈ paths → front ∈ paths

/-- A path of one more name than its directory, which is empty for the root. -/
def EntryOf (dir path : CString) : Prop := ∃ name, PlainName name ∧ path = subpath dir name

/-- The directory of a path is there. -/
def ParentIn (path : CString) (paths : Set CString) : Prop := svnPathDirname path = [] ∨ svnPathDirname path ∈ paths

theorem PlainPath.ne_nil {path : CString} (plain : PlainPath path) : path ≠ [] := by
  obtain ⟨names, some, plain, rfl⟩ := plain
  exact fun empty => some ((joined_eq_nil plain).mp empty)

theorem PathTree.ne_nil {paths : Set CString} (tree : PathTree paths) {q : CString} (member : q ∈ paths) : q ≠ [] :=
  (tree.plain q member).ne_nil

theorem PathTree.up {paths : Set CString} (tree : PathTree paths) {p q : CString} (member : q ∈ paths) (below : Below p q)
    (named : p ≠ []) : p ∈ paths := by
  by_cases same : q = p
  · exact same ▸ member
  · obtain ⟨rest, rfl⟩ := below.exists_rest named same
    exact tree.closed p rest member

section Entries

variable {dir path path' q : CString}

theorem EntryOf.below (entry : EntryOf dir path) : Below dir path := by
  obtain ⟨name, -, rfl⟩ := entry
  exact below_subpath dir name

theorem EntryOf.ne_nil (entry : EntryOf dir path) : path ≠ [] := by
  obtain ⟨name, plain, rfl⟩ := entry
  unfold subpath
  split
  · simp
  · exact plain.1

theorem EntryOf.ne (entry : EntryOf dir path) : path ≠ dir := by
  obtain ⟨name, plain, rfl⟩ := entry
  exact subpath_ne dir plain.1

theorem EntryOf.dirname (entry : EntryOf dir path) : svnPathDirname path = dir := by
  obtain ⟨name, plain, rfl⟩ := entry
  unfold subpath
  split
  · exact svnPathDirname_eq plain.2
  · next empty =>
    rw [List.eq_nil_of_length_eq_zero (Nat.eq_zero_of_not_pos empty)]
    exact svnPathDirname_plain plain.2

/-- What is above an entry is above its directory. -/
theorem EntryOf.above (entry : EntryOf dir path) (below : Below q path) (other : q ≠ path) : Below q dir := by
  by_cases root : q = []
  · exact root ▸ below_nil dir
  obtain ⟨name, plain, rfl⟩ := entry
  obtain ⟨rest, split⟩ := below.exists_rest root other.symm
  unfold subpath at split
  split at split
  · rcases parent_of_split plain.2 split with rfl | ⟨t, rfl⟩
    · exact below_refl q
    · exact below_slash q t
  · exact absurd (by simp [split]) plain.2

/-- Different entries of a directory have nothing below in common. -/
theorem EntryOf.apart (entry : EntryOf dir path) (entry' : EntryOf dir path') (below : Below path q) (below' : Below path' q) :
    path = path' := by
  by_contra other
  rcases below.total below' with under | under
  · exact entry.ne (entry.below.antisymm (entry'.above under other)).symm
  · exact entry'.ne (entry'.below.antisymm (entry.above under fun same => other same.symm)).symm

end Entries

theorem PlainPath.relative {path : CString} (plain : PlainPath path) : path.head? ≠ some slash := by
  obtain ⟨names, -, plain, rfl⟩ := plain
  exact head_joined plain

theorem joined_ne_trailing {names : List CString} (plain : ∀ name ∈ names, PlainName name) (front : CString) :
    joined names ≠ front ++ [slash] := by
  induction names generalizing front with
  | nil => simp [joined]
  | cons name rest ih =>
    obtain ⟨own, later⟩ := List.forall_mem_cons.mp plain
    intro same
    by_cases last : rest = []
    · subst last
      have member : slash ∈ name := by
        rw [show name = front ++ [slash] from same]
        simp
      exact own.2 member
    · rw [joined_cons name last] at same
      have long : joined rest ≠ [] := fun empty => last ((joined_eq_nil later).mp empty)
      obtain ⟨init, c, split⟩ := (List.eq_nil_or_concat (joined rest)).resolve_left long
      rw [split, List.concat_eq_append, ← List.cons_append, ← List.append_assoc] at same
      have ends := (List.append_inj' same rfl).2
      refine ih later init ?_
      rw [split, List.concat_eq_append, List.singleton_inj.mp ends]

theorem PlainPath.ne_trailing {path : CString} (plain : PlainPath path) (front : CString) : path ≠ front ++ [slash] := by
  obtain ⟨names, -, plain, rfl⟩ := plain
  exact joined_ne_trailing plain front

theorem EntryOf.plainPath {dir path : CString} (entry : EntryOf dir path) (above : dir = [] ∨ PlainPath dir) : PlainPath path := by
  obtain ⟨name, plain, rfl⟩ := entry
  rcases above with rfl | ⟨names, some, plain', rfl⟩
  · exact ⟨[name], by simp, by simpa using plain, rfl⟩
  · refine ⟨names ++ [name], by simp, ?_, ?_⟩
    · intro n member
      rcases List.mem_append.mp member with inside | last
      · exact plain' n inside
      · exact List.mem_singleton.mp last ▸ plain
    · have long : joined names ≠ [] := fun empty => some ((joined_eq_nil plain').mp empty)
      rw [joined_append some (List.cons_ne_nil _ _), subpath_of_ne long]
      rfl

theorem PathTree.removed {paths : Set CString} (tree : PathTree paths) (path : CString) :
    PathTree {q ∈ paths | ¬ Below path q} where
  plain q member := tree.plain q member.1
  closed front rest member := ⟨tree.closed front rest member.1, fun below => member.2 (below.trans (below_slash front rest))⟩

theorem PathTree.entry {paths : Set CString} (tree : PathTree paths) {dir path : CString} (entry : EntryOf dir path)
    (there : dir = [] ∨ dir ∈ paths) : PathTree (insert path paths) := by
  have plain : PlainPath path := entry.plainPath (there.imp_right (tree.plain dir))
  constructor
  · rintro q (rfl | member)
    · exact plain
    · exact tree.plain q member
  · rintro front rest (same | member)
    · have named : front ≠ [] := by
        rintro rfl
        exact plain.relative (by rw [← same]; rfl)
      have above : Below front dir := entry.above (by rw [← same]; exact below_slash front rest) (by
        intro wrong
        have longer := congrArg List.length (same.trans wrong.symm)
        simp at longer)
      rcases there with rfl | member
      · exact absurd (below_nil_right.mp above) named
      · exact .inr (tree.up member above named)
    · exact .inr (tree.closed front rest member)

/-- The directory of an entry is its parent. -/
theorem EntryOf.parentIn {dir path : CString} {paths : Set CString} (entry : EntryOf dir path) (there : dir = [] ∨ dir ∈ paths) :
    ParentIn path paths := by
  unfold ParentIn
  rw [entry.dirname]
  exact there

/-! ## Edits -/

/-- The calls on one directory: each with the calls below it, and then the others. -/
inductive TreeEdit where
  | done
  | delete (path : CString) (rest : TreeEdit)
  | add (path : CString) (children rest : TreeEdit)
  | enter (path : CString) (children rest : TreeEdit)

/-- The calls of an editor without properties and texts. -/
def Drive.treeEdit : Drive → TreeEdit
  | .done => .done
  | .deleteEntry path rest => .delete path rest.treeEdit
  | .addDirectory path _ children rest => .add path children.treeEdit rest.treeEdit
  | .openDirectory path _ children rest => .enter path children.treeEdit rest.treeEdit
  | .addFile path _ _ rest => .add path .done rest.treeEdit
  | .openFile path _ _ rest => .enter path .done rest.treeEdit

namespace TreeEdit

/-- The paths of the calls on one directory. -/
def entries : TreeEdit → List CString
  | .done => []
  | .delete path rest => path :: rest.entries
  | .add path _ rest => path :: rest.entries
  | .enter path _ rest => path :: rest.entries

/-- The paths that are added, each before those below it. -/
def added : TreeEdit → List CString
  | .done => []
  | .delete _ rest => rest.added
  | .add path children rest => path :: (children.added ++ rest.added)
  | .enter _ children rest => children.added ++ rest.added

def deleted : TreeEdit → List CString
  | .done => []
  | .delete path rest => path :: rest.deleted
  | .add _ children rest => children.deleted ++ rest.deleted
  | .enter _ children rest => children.deleted ++ rest.deleted

-- The driver compares two revisions and ignores their ancestry: an entry of the same kind is
-- opened even if it has been replaced.

/-- The calls on the directory `dir` turn the paths `before` into `after`. Below an added directory everything is added;
elsewhere what is gone is deleted, and what has changed its kind is deleted and added. Apart from such a change, no entry
is visited twice. -/
def Leads : TreeEdit → Bool → CString → Set CString → Set CString → Prop
  | .done, _, _, before, after => before = after
  | .delete path rest, fresh, dir, before, after =>
      fresh = false ∧ EntryOf dir path ∧ path ∈ before ∧ rest.Leads fresh dir {q ∈ before | ¬ Below path q} after
  | .add path children rest, fresh, dir, before, after =>
      EntryOf dir path ∧ path ∉ before ∧ path ∉ rest.entries ∧
        ∃ mid, children.Leads true path (insert path before) mid ∧ rest.Leads fresh dir mid after
  | .enter path children rest, fresh, dir, before, after =>
      fresh = false ∧ EntryOf dir path ∧ path ∈ before ∧ path ∉ rest.entries ∧
        ∃ mid, children.Leads false path before mid ∧ rest.Leads fresh dir mid after

end TreeEdit

theorem makes_of_leads {drive : Drive} {fresh : Bool} {dir : CString} {before after : Set CString}
    (leads : drive.treeEdit.Leads fresh dir before after) : drive.Makes before after := by
  induction drive generalizing fresh dir before after with
  | done => exact leads
  | deleteEntry path rest ih => exact ⟨leads.2.2.1, ih leads.2.2.2⟩
  | addDirectory path props children rest ihChildren ihRest =>
    obtain ⟨-, absent, -, mid, inner, later⟩ := leads
    exact ⟨absent, mid, ihChildren inner, ihRest later⟩
  | openDirectory path props children rest ihChildren ihRest =>
    obtain ⟨-, -, -, -, mid, inner, later⟩ := leads
    exact ⟨mid, ihChildren inner, ihRest later⟩
  | addFile path props text rest ih =>
    obtain ⟨-, absent, -, mid, inner, later⟩ := leads
    exact ⟨absent, ih (by rw [show insert path before = mid from inner]; exact later)⟩
  | openFile path props text rest ih =>
    obtain ⟨-, -, -, -, mid, inner, later⟩ := leads
    exact ih (by rw [show before = mid from inner]; exact later)

namespace TreeEdit

variable {edit : TreeEdit} {fresh : Bool} {dir p q x : CString} {before after : Set CString}

theorem Leads.entryOf (leads : edit.Leads fresh dir before after) (member : p ∈ edit.entries) : EntryOf dir p := by
  induction edit generalizing fresh before after with
  | done => cases member
  | delete path rest ih =>
    rcases List.mem_cons.mp member with rfl | member
    · exact leads.2.1
    · exact ih leads.2.2.2 member
  | add path children rest _ ih =>
    obtain ⟨entry, -, -, mid, -, later⟩ := leads
    rcases List.mem_cons.mp member with rfl | member
    · exact entry
    · exact ih later member
  | enter path children rest _ ih =>
    obtain ⟨-, entry, -, -, mid, -, later⟩ := leads
    rcases List.mem_cons.mp member with rfl | member
    · exact entry
    · exact ih later member

/-- Below an added directory nothing is deleted. -/
theorem Leads.fresh_deleted (leads : edit.Leads true dir before after) : edit.deleted = [] := by
  induction edit generalizing dir before after with
  | done => rfl
  | delete path rest ih => cases leads.1
  | add path children rest ihChildren ihRest =>
    obtain ⟨-, -, -, mid, inner, later⟩ := leads
    rw [deleted, ihChildren inner, ihRest later]
    rfl
  | enter path children rest ihChildren ihRest => cases leads.1

/-- What is added or deleted is at or below an entry that is visited. -/
theorem Leads.reached (leads : edit.Leads fresh dir before after) (member : x ∈ edit.added ∨ x ∈ edit.deleted) :
    ∃ p ∈ edit.entries, Below p x := by
  induction edit generalizing fresh dir before after with
  | done => rcases member with member | member <;> cases member
  | delete path rest ih =>
    have split : x = path ∨ (x ∈ rest.added ∨ x ∈ rest.deleted) := by
      simp only [added, deleted, List.mem_cons] at member
      tauto
    rcases split with rfl | member
    · exact ⟨x, List.mem_cons_self, below_refl x⟩
    · obtain ⟨p, inside, below⟩ := ih leads.2.2.2 member
      exact ⟨p, List.mem_cons_of_mem path inside, below⟩
  | add path children rest ihChildren ihRest =>
    obtain ⟨entry, -, -, mid, inner, later⟩ := leads
    have split : x = path ∨ (x ∈ children.added ∨ x ∈ children.deleted) ∨ (x ∈ rest.added ∨ x ∈ rest.deleted) := by
      simp only [added, deleted, List.mem_cons, List.mem_append] at member
      tauto
    rcases split with rfl | member | member
    · exact ⟨x, List.mem_cons_self, below_refl x⟩
    · obtain ⟨p, inside, below⟩ := ihChildren inner member
      exact ⟨path, List.mem_cons_self, (inner.entryOf inside).below.trans below⟩
    · obtain ⟨p, inside, below⟩ := ihRest later member
      exact ⟨p, List.mem_cons_of_mem path inside, below⟩
  | enter path children rest ihChildren ihRest =>
    obtain ⟨-, entry, -, -, mid, inner, later⟩ := leads
    have split : (x ∈ children.added ∨ x ∈ children.deleted) ∨ (x ∈ rest.added ∨ x ∈ rest.deleted) := by
      simp only [added, deleted, List.mem_append] at member
      tauto
    rcases split with member | member
    · obtain ⟨p, inside, below⟩ := ihChildren inner member
      exact ⟨path, List.mem_cons_self, (inner.entryOf inside).below.trans below⟩
    · obtain ⟨p, inside, below⟩ := ihRest later member
      exact ⟨p, List.mem_cons_of_mem path inside, below⟩

theorem Leads.deleted_ne_nil (leads : edit.Leads fresh dir before after) (gone : p ∈ edit.deleted) : p ≠ [] := by
  rintro rfl
  obtain ⟨e, inside, above⟩ := leads.reached (.inr gone)
  exact (leads.entryOf inside).ne_nil (below_nil_right.mp above)

/-- Elsewhere nothing changes. -/
theorem Leads.elsewhere (leads : edit.Leads fresh dir before after) (apart : ∀ p ∈ edit.entries, ¬ Below p q) :
    q ∈ after ↔ q ∈ before := by
  induction edit generalizing fresh dir before after with
  | done =>
    rw [show before = after from leads]
  | delete path rest ih =>
    obtain ⟨own, others⟩ := List.forall_mem_cons.mp apart
    rw [ih leads.2.2.2 others]
    exact and_iff_left own
  | add path children rest ihChildren ihRest =>
    obtain ⟨entry, -, -, mid, inner, later⟩ := leads
    obtain ⟨own, others⟩ := List.forall_mem_cons.mp apart
    rw [ihRest later others, ihChildren inner fun p member below => own ((inner.entryOf member).below.trans below)]
    exact or_iff_right fun same => own (same ▸ below_refl path)
  | enter path children rest ihChildren ihRest =>
    obtain ⟨-, entry, -, -, mid, inner, later⟩ := leads
    obtain ⟨own, others⟩ := List.forall_mem_cons.mp apart
    rw [ihRest later others, ihChildren inner fun p member below => own ((inner.entryOf member).below.trans below)]

/-- The calls on the other entries change nothing at or below this one. -/
theorem Leads.rest_apart {rest : TreeEdit} {path : CString} {mid : Set CString} (later : rest.Leads fresh dir mid after)
    (entry : EntryOf dir path) (once : path ∉ rest.entries) (below : Below path q) : ∀ p ∈ rest.entries, ¬ Below p q :=
  fun _ member under => once (entry.apart (later.entryOf member) below under ▸ member)

theorem Leads.rest_kept {rest : TreeEdit} {path : CString} {mid : Set CString} (later : rest.Leads fresh dir mid after)
    (entry : EntryOf dir path) (once : path ∉ rest.entries) (below : Below path q) : q ∈ after ↔ q ∈ mid :=
  later.elsewhere (later.rest_apart entry once below)

/-- The directory itself is no entry of its own, and neither is what is above it. -/
theorem Leads.above_kept (leads : edit.Leads fresh dir before after) (above : Below q dir) : q ∈ after ↔ q ∈ before := by
  refine leads.elsewhere fun p member below => ?_
  have entry := leads.entryOf member
  exact entry.ne ((below.trans above).antisymm entry.below)

theorem Leads.children_reached {children : TreeEdit} {path : CString} {inner : Bool} {mid : Set CString}
    (leads : children.Leads inner path before mid) (member : x ∈ children.added ∨ x ∈ children.deleted) : Below path x := by
  obtain ⟨p, inside, below⟩ := leads.reached member
  exact (leads.entryOf inside).below.trans below

/-- An added directory and what is added in it are at or below it. -/
theorem Leads.added_under {children : TreeEdit} {path : CString} {inner : Bool} {mid : Set CString}
    (leads : children.Leads inner path before mid) : ∀ v ∈ [path] ++ children.added, Below path v := by
  intro v member
  rcases List.mem_append.mp member with own | inside
  · rw [List.mem_singleton.mp own]
    exact below_refl path
  · exact leads.children_reached (.inl inside)

/-- What is added in a directory is strictly below it. -/
theorem Leads.added_strict (leads : edit.Leads fresh dir before after) (member : x ∈ edit.added) : ¬ Below x dir := by
  intro above
  obtain ⟨p, inside, below⟩ := leads.reached (.inl member)
  have entry := leads.entryOf inside
  exact entry.ne ((below.trans above).antisymm entry.below)

/-- What the other entries add or delete is neither at nor above what is below this one. -/
theorem Leads.rest_reached_apart {rest : TreeEdit} {path : CString} {mid : Set CString} (later : rest.Leads fresh dir mid after)
    (entry : EntryOf dir path) (once : path ∉ rest.entries) (below : Below path q) (member : p ∈ rest.added ∨ p ∈ rest.deleted) :
    ¬ Below p q := by
  intro under
  obtain ⟨e, inside, above⟩ := later.reached member
  exact later.rest_apart entry once below e inside (above.trans under)

/-- What there is afterwards was there before or has been added. -/
theorem Leads.origin (leads : edit.Leads fresh dir before after) (member : q ∈ after) : q ∈ before ∨ q ∈ edit.added := by
  induction edit generalizing fresh dir before after with
  | done =>
    left
    rwa [show before = after from leads]
  | delete path rest ih => exact (ih leads.2.2.2 member).imp_left And.left
  | add path children rest ihChildren ihRest =>
    obtain ⟨-, -, -, mid, inner, later⟩ := leads
    simp only [added, List.mem_cons, List.mem_append]
    rcases ihRest later member with inside | new
    · rcases ihChildren inner inside with (rfl | old) | new
      · exact .inr (.inl rfl)
      · exact .inl old
      · exact .inr (.inr (.inl new))
    · exact .inr (.inr (.inr new))
  | enter path children rest ihChildren ihRest =>
    obtain ⟨-, -, -, -, mid, inner, later⟩ := leads
    simp only [added, List.mem_append]
    rcases ihRest later member with inside | new
    · exact (ihChildren inner inside).imp_right .inl
    · exact .inr (.inr new)

/-- What is added stays. -/
theorem Leads.added_kept (leads : edit.Leads fresh dir before after) (member : x ∈ edit.added) : x ∈ after := by
  induction edit generalizing fresh dir before after with
  | done => cases member
  | delete path rest ih => exact ih leads.2.2.2 member
  | add path children rest ihChildren ihRest =>
    obtain ⟨entry, -, once, mid, inner, later⟩ := leads
    simp only [added, List.mem_cons, List.mem_append] at member
    rcases member with rfl | member | member
    · rw [later.rest_kept entry once (below_refl x), inner.above_kept (below_refl x)]
      exact Set.mem_insert x before
    · rw [later.rest_kept entry once (inner.children_reached (.inl member))]
      exact ihChildren inner member
    · exact ihRest later member
  | enter path children rest ihChildren ihRest =>
    obtain ⟨-, entry, -, once, mid, inner, later⟩ := leads
    rcases List.mem_append.mp member with member | member
    · rw [later.rest_kept entry once (inner.children_reached (.inl member))]
      exact ihChildren inner member
    · exact ihRest later member

/-- The paths of a tree are those of a tree afterwards. -/
theorem Leads.tree (leads : edit.Leads fresh dir before after) (tree : PathTree before) (there : dir = [] ∨ dir ∈ before) :
    PathTree after := by
  induction edit generalizing fresh dir before after with
  | done =>
    rw [← show before = after from leads]
    exact tree
  | delete path rest ih =>
    obtain ⟨-, entry, -, later⟩ := leads
    refine ih later (tree.removed path) (there.imp_right fun inside => ⟨inside, fun below => ?_⟩)
    exact entry.ne (below.antisymm entry.below)
  | add path children rest ihChildren ihRest =>
    obtain ⟨entry, -, -, mid, inner, later⟩ := leads
    have grown := ihChildren inner (tree.entry entry there) (.inr (Set.mem_insert path before))
    exact ihRest later grown (there.imp_right fun inside => (inner.above_kept entry.below).mpr (.inr inside))
  | enter path children rest ihChildren ihRest =>
    obtain ⟨-, entry, present, -, mid, inner, later⟩ := leads
    have grown := ihChildren inner tree (.inr present)
    exact ihRest later grown (there.imp_right fun inside => (inner.above_kept entry.below).mpr inside)

/-- What is below an added path is added, too. -/
theorem Leads.added_below (leads : edit.Leads fresh dir before after) (tree : PathTree before) (there : dir = [] ∨ dir ∈ before)
    (member : x ∈ edit.added) (inside : q ∈ after) (below : Below x q) : q ∈ edit.added := by
  induction edit generalizing fresh dir before after with
  | done => cases member
  | delete path rest ih =>
    obtain ⟨-, entry, -, later⟩ := leads
    refine ih later (tree.removed path) (there.imp_right fun inside => ⟨inside, fun below => ?_⟩) member inside
    exact entry.ne (below.antisymm entry.below)
  | add path children rest ihChildren ihRest =>
    obtain ⟨entry, absent, once, mid, inner, later⟩ := leads
    have insertTree := tree.entry entry there
    have middle := inner.tree insertTree (.inr (Set.mem_insert path before))
    have there' := there.imp_right fun inside => (inner.above_kept entry.below).mpr (.inr inside)
    simp only [added, List.mem_cons, List.mem_append] at member ⊢
    rcases member with rfl | member | member
    · rw [later.rest_kept entry once below] at inside
      rcases inner.origin inside with (same | old) | new
      · exact .inl same
      · exact absurd (tree.up old below entry.ne_nil) absent
      · exact .inr (.inl new)
    · rw [later.rest_kept entry once ((inner.children_reached (.inl member)).trans below)] at inside
      exact .inr (.inl (ihChildren inner insertTree (.inr (Set.mem_insert path before)) member inside))
    · exact .inr (.inr (ihRest later middle there' member inside))
  | enter path children rest ihChildren ihRest =>
    obtain ⟨-, entry, present, once, mid, inner, later⟩ := leads
    have middle := inner.tree tree (.inr present)
    have there' := there.imp_right fun inside => (inner.above_kept entry.below).mpr inside
    simp only [added, List.mem_append] at member ⊢
    rcases member with member | member
    · rw [later.rest_kept entry once ((inner.children_reached (.inl member)).trans below)] at inside
      exact .inl (ihChildren inner tree (.inr present) member inside)
    · exact .inr (ihRest later middle there' member inside)

/-- What is deleted and there afterwards has been added again. -/
theorem Leads.deleted_added (leads : edit.Leads fresh dir before after) (member : p ∈ edit.deleted) (inside : p ∈ after) :
    p ∈ edit.added := by
  induction edit generalizing fresh dir before after with
  | done => cases member
  | delete path rest ih =>
    obtain ⟨-, entry, -, later⟩ := leads
    rcases List.mem_cons.mp member with rfl | member
    · exact (later.origin inside).resolve_left fun kept => kept.2 (below_refl p)
    · exact ih later member inside
  | add path children rest ihChildren ihRest =>
    obtain ⟨entry, -, once, mid, inner, later⟩ := leads
    rw [deleted, inner.fresh_deleted, List.nil_append] at member
    exact List.mem_cons_of_mem path (List.mem_append_right _ (ihRest later member inside))
  | enter path children rest ihChildren ihRest =>
    obtain ⟨-, entry, -, once, mid, inner, later⟩ := leads
    rcases List.mem_append.mp member with member | member
    · rw [later.rest_kept entry once (inner.children_reached (.inr member))] at inside
      exact List.mem_append_left _ (ihChildren inner member inside)
    · exact List.mem_append_right _ (ihRest later member inside)

/-- No path is deleted below an added one. -/
theorem Leads.deleted_above (leads : edit.Leads fresh dir before after) (gone : p ∈ edit.deleted) (member : x ∈ edit.added)
    (below : Below x p) : x = p := by
  induction edit generalizing fresh dir before after with
  | done => cases member
  | delete path rest ih =>
    obtain ⟨-, entry, -, later⟩ := leads
    rcases List.mem_cons.mp gone with rfl | gone
    · -- only the path itself can be added again
      obtain ⟨e, inside, above⟩ := later.reached (.inl member)
      have same := (later.entryOf inside).apart entry (above.trans below) (below_refl p)
      exact below.antisymm (same ▸ above)
    · exact ih later gone member
  | add path children rest ihChildren ihRest =>
    obtain ⟨entry, -, once, mid, inner, later⟩ := leads
    rw [deleted, inner.fresh_deleted, List.nil_append] at gone
    simp only [added, List.mem_cons, List.mem_append] at member
    rcases member with rfl | member | member
    · exact absurd (below_refl p) (later.rest_reached_apart entry once below (.inr gone))
    · have under := (inner.children_reached (.inl member)).trans below
      exact absurd (below_refl p) (later.rest_reached_apart entry once under (.inr gone))
    · exact ihRest later gone member
  | enter path children rest ihChildren ihRest =>
    obtain ⟨-, entry, -, once, mid, inner, later⟩ := leads
    rcases List.mem_append.mp gone with gone | gone
    · rcases List.mem_append.mp member with member | member
      · exact ihChildren inner gone member
      · exact absurd below (later.rest_reached_apart entry once (inner.children_reached (.inr gone)) (.inl member))
    · rcases List.mem_append.mp member with member | member
      · have under := (inner.children_reached (.inl member)).trans below
        exact absurd (below_refl p) (later.rest_reached_apart entry once under (.inr gone))
      · exact ihRest later gone member

/-- A path is added before those below it. -/
theorem Leads.added_first (leads : edit.Leads fresh dir before after) : ParentsFirst edit.added := by
  induction edit generalizing fresh dir before after with
  | done => exact .nil
  | delete path rest ih => exact ih leads.2.2.2
  | add path children rest ihChildren ihRest =>
    obtain ⟨entry, -, once, mid, inner, later⟩ := leads
    rw [ParentsFirst, added, List.pairwise_cons, List.pairwise_append]
    refine ⟨fun b member below => ?_, ihChildren inner, ihRest later, fun a first b second below => ?_⟩
    · rcases List.mem_append.mp member with member | member
      · exact (inner.children_reached (.inl member)).antisymm below
      · exact absurd below (later.rest_reached_apart entry once (below_refl path) (.inl member))
    · exact absurd below (later.rest_reached_apart entry once (inner.children_reached (.inl first)) (.inl second))
  | enter path children rest ihChildren ihRest =>
    obtain ⟨-, entry, -, once, mid, inner, later⟩ := leads
    rw [ParentsFirst, added, List.pairwise_append]
    refine ⟨ihChildren inner, ihRest later, fun a first b second below => ?_⟩
    exact absurd below (later.rest_reached_apart entry once (inner.children_reached (.inl first)) (.inl second))

end TreeEdit

end Rsvndump
