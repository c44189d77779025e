import Rsvndump.Delta.TreeEdits

/-! Loading the records of an edit.

A loader holds the paths of the revisions before, and each node record changes those of
the current one. Whether it can depends on what the copies of the log bring along.
-/

set_option autoImplicit false

namespace Rsvndump

open Library

/-! ## The loader -/

/-- What a record does to the paths of the current revision; `shown` is the path a path is printed as. Nothing else can be
loaded. -/
inductive Loads (shown : CString → CString) (repo : RepoPaths) (revision : Int) (record : NodeRecord) (before : Set CString) :
    Set CString → Prop
  | delete {path : CString} : record.action = .delete → record.path = shown path → path ∈ before →
      Loads shown repo revision record before {q ∈ before | ¬ Below path q}
  | add {path : CString} : record.action = .add → record.path = shown path → record.copyfrom = none → path ∉ before →
      ParentIn path before → Loads shown repo revision record before (insert path before)
  | copy {path source : CString} {original : Int} : record.action = .add → record.path = shown path →
      record.copyfrom = some (shown source, original) → 0 ≤ original → original < revision →
      (source = [] ∨ source ∈ repo original) → path ∉ before → ParentIn path before →
      Loads shown repo revision record before (before ∪ copied source path (repo original))
  | change {path : CString} : record.action = .modify → record.path = shown path → path = [slash] ∨ path ∈ before →
      Loads shown repo revision record before before

/-- The records of a revision, loaded one after the other. -/
abbrev Replays (shown : CString → CString) (repo : RepoPaths) (revision : Int) :
    List NodeRecord → Set CString → Set CString → Prop :=
  Runs (Loads shown repo revision)

/-! ## The log -/

/-- The change of a path can be made to the paths `now`. -/
structure Applicable (repo : RepoPaths) (revision : Int) (path : CString) (info : ChangedPath) (now : Set CString) : Prop where
  plain : path = [] ∨ PlainPath path
  root : path = [] → info.action = .modify
  absent : info.action = .add → path ∉ now
  present : info.action ≠ .add → path = [] ∨ path ∈ now
  parent : info.adds → ParentIn path now
  source : ∀ source original, info.copyfrom = some (source, original) →
    info.adds ∧ 0 ≤ original ∧ original < revision ∧ (source = [] ∨ source ∈ repo original)

/-- The changed paths of a revision, those of the parents first, can be made one after the other and turn the paths `before`
into `after`. -/
def Applies (repo : RepoPaths) (revision : Int) (table : AprHash ChangedPath) (before after : Set CString) : Prop :=
  ∃ order, order.Perm table.keys ∧ ParentsFirst order ∧
    (∀ front path rest info, order = front ++ path :: rest → table.lookup path = some info →
      Applicable repo revision path info (Overwrite.run (front.map (tableChange repo table)) before)) ∧
    ∀ q ≠ [], q ∈ Overwrite.run (order.map (tableChange repo table)) before ↔ q ∈ after

/-! ## What copies bring -/

-- The paths an edit adds are visited one after the other, each before those below it. A copy
-- brings paths that the log does not list, until a nearer path is added or replaced.

/-- `y` is strictly above `q`, and the log adds or replaces it. -/
def Renews (table : AprHash ChangedPath) (y q : CString) : Prop :=
  Below y q ∧ q ≠ y ∧ ∃ info, table.lookup y = some info ∧ info.adds

/-- The last path among `visited` that the log adds or replaces above `q` is a copy of `source`, and `q` comes with it. -/
def SuppliedFrom (repo : RepoPaths) (table : AprHash ChangedPath) (visited : List CString) (source q : CString) : Prop :=
  ∃ front x back info original, visited = front ++ x :: back ∧ table.lookup x = some info ∧ info.adds ∧
    info.copyfrom = some (source, original) ∧ q ≠ x ∧ q ∈ copied source x (repo original) ∧ ∀ y ∈ back, ¬ Renews table y q

def Supplied (repo : RepoPaths) (table : AprHash ChangedPath) (visited : List CString) (q : CString) : Prop :=
  ∃ source, SuppliedFrom repo table visited source q

/-! ### Copied paths -/

theorem mem_copied {source path q : CString} {paths : Set CString} :
    q ∈ copied source path paths ↔ q = path ∨ ∃ rel ≠ [], subpath source rel ∈ paths ∧ q = subpath path rel := by
  simp only [copied, subtree, Set.mem_ofPred_eq]
  constructor
  · rintro (same | ⟨rel, ⟨some, inside⟩, same⟩)
    · exact .inl same
    · exact .inr ⟨rel, some, inside, same⟩
  · rintro (same | ⟨rel, some, inside, same⟩)
    · exact .inl same
    · exact .inr ⟨rel, ⟨some, inside⟩, same⟩

theorem below_of_mem_copied {source path q : CString} {paths : Set CString} (member : q ∈ copied source path paths) :
    Below path q := by
  rcases mem_copied.mp member with rfl | ⟨rel, -, -, rfl⟩
  · exact below_refl q
  · exact below_subpath path rel

/-- With a path, a copy brings what is above it. -/
theorem copied_up {source path p q : CString} {paths : Set CString} (tree : PathTree paths) (named : path ≠ [])
    (member : q ∈ copied source path paths) (above : Below path p) (below : Below p q) : p ∈ copied source path paths := by
  rw [mem_copied]
  by_cases itself : p = path
  · exact .inl itself
  obtain ⟨rest, rfl⟩ := above.exists_rest named itself
  rcases mem_copied.mp member with rfl | ⟨rel, some, inside, rfl⟩
  · exact absurd (below.antisymm above) itself
  rw [subpath_of_ne named] at below
  -- the two paths end below the target in the same names, as far as the shorter one goes
  have split : rel = rest ∨ ∃ t, rel = rest ++ slash :: t := by
    by_cases same : path ++ slash :: rel = path ++ slash :: rest
    · exact .inl (by simpa using same)
    · obtain ⟨t, deeper⟩ := below.exists_rest (by simp) same
      exact .inr ⟨t, by simpa using deeper⟩
  rcases split with rfl | ⟨t, rfl⟩
  · exact .inr ⟨rel, some, inside, (subpath_of_ne named rel).symm⟩
  · have upper : subpath source rest ∈ paths := by
      refine tree.closed (subpath source rest) t ?_
      unfold subpath at inside ⊢
      split
      · next long =>
        rw [if_pos long] at inside
        simpa using inside
      · next empty => rwa [if_neg empty] at inside
    refine .inr ⟨rest, ?_, upper, (subpath_of_ne named rest).symm⟩
    rintro rfl
    unfold subpath at upper
    split at upper
    · exact (tree.plain _ upper).ne_trailing source rfl
    · exact tree.ne_nil upper rfl

/-! ### Supplies -/

section Supplies

variable {repo : RepoPaths} {table : AprHash ChangedPath} {visited more : List CString} {source p q x : CString}

theorem Renews.up {y : CString} (renews : Renews table y p) (below : Below p q) : Renews table y q := by
  refine ⟨renews.1.trans below, ?_, renews.2.2⟩
  rintro rfl
  exact renews.2.1 (below.antisymm renews.1)

/-- What is visited elsewhere brings nothing. -/
theorem suppliedFrom_append (apart : ∀ y ∈ more, ¬ Renews table y q) :
    SuppliedFrom repo table (visited ++ more) source q ↔ SuppliedFrom repo table visited source q := by
  constructor
  · rintro ⟨front, x, back, info, original, split, found, adds, copies, other, brings, last⟩
    have early : x ∉ more := fun member => apart x member ⟨below_of_mem_copied brings, other, info, found, adds⟩
    rcases List.append_eq_append_iff.mp split with ⟨mid, -, rest⟩ | ⟨mid, whole, rest⟩
    · exact absurd (by simp [rest]) early
    · cases mid with
      | nil =>
        rw [List.nil_append] at rest
        exact absurd (rest ▸ List.mem_cons_self) early
      | cons y mid =>
        obtain ⟨rfl, rfl⟩ := List.cons.inj rest
        exact ⟨front, x, mid, info, original, whole, found, adds, copies, other, brings,
          fun y member => last y (List.mem_append_left more member)⟩
  · rintro ⟨front, x, back, info, original, rfl, found, adds, copies, other, brings, last⟩
    refine ⟨front, x, back ++ more, info, original, by simp, found, adds, copies, other, brings, fun y member => ?_⟩
    exact (List.mem_append.mp member).elim (last y) (apart y)

theorem supplied_append (apart : ∀ y ∈ more, ¬ Renews table y q) :
    Supplied repo table (visited ++ more) q ↔ Supplied repo table visited q :=
  exists_congr fun _ => suppliedFrom_append apart

/-- The path visited last decides on what the log lets it renew. -/
theorem suppliedFrom_snoc (renews : Renews table x q) :
    SuppliedFrom repo table (visited ++ [x]) source q ↔
      ∃ info original, table.lookup x = some info ∧ info.copyfrom = some (source, original) ∧
        q ∈ copied source x (repo original) := by
  have renewed := renews
  obtain ⟨-, other, info, found, adds⟩ := renews
  constructor
  · -- another path at the end would renew the path after the copy
    rintro ⟨front, y, back, info', original, split, found', -, copies, -, brings, last⟩
    rcases List.eq_nil_or_concat back with rfl | ⟨init, z, rfl⟩
    · obtain ⟨-, same⟩ := List.append_inj' split rfl
      cases same
      exact ⟨info', original, found', copies, brings⟩
    · rw [List.concat_eq_append, ← List.cons_append, ← List.append_assoc] at split
      obtain ⟨-, same⟩ := List.append_inj' split rfl
      cases same
      exact absurd renewed (last x (by simp))
  · rintro ⟨info', original, found', copies, brings⟩
    cases Option.some.inj (found.symm.trans found')
    exact ⟨visited, x, [], info, original, rfl, found, adds, copies, other, brings, by simp⟩

/-- A supply has been visited. -/
theorem SuppliedFrom.renewed (supplied : SuppliedFrom repo table visited source q) : ∃ x ∈ visited, Renews table x q := by
  obtain ⟨front, x, back, info, original, rfl, found, adds, copies, other, brings, -⟩ := supplied
  exact ⟨x, by simp, below_of_mem_copied brings, other, info, found, adds⟩

/-- With a path, what is above it and below the copy is supplied. -/
theorem SuppliedFrom.up (trees : ∀ r, PathTree (repo r)) (named : ∀ y ∈ visited, y ≠ [])
    (supplied : SuppliedFrom repo table visited source q) (below : Below p q) (apart : ∀ y ∈ visited, ¬ Below p y) :
    SuppliedFrom repo table visited source p := by
  obtain ⟨front, x, back, info, original, rfl, found, adds, copies, other, brings, last⟩ := supplied
  have inside : x ∈ front ++ x :: back := by simp
  have above : Below x p := ((below_of_mem_copied brings).total below).resolve_right (apart x inside)
  have proper : p ≠ x := fun same => apart x inside (same ▸ below_refl p)
  exact ⟨front, x, back, info, original, rfl, found, adds, copies, proper,
    copied_up (trees original) (named x inside) brings above below, fun y member renews => last y member (renews.up below)⟩

end Supplies

/-! ### Logged changes -/

section Applied

variable {repo : RepoPaths} {revision : Int} {table : AprHash ChangedPath} {before after : Set CString} {visited : List CString}
  {source d q x : CString} {info : ChangedPath}

theorem ParentsFirst.later_apart {order front back : List CString} {path : CString} (first : ParentsFirst order)
    (nodup : order.Nodup) (split : order = front ++ path :: back) {y : CString} (member : y ∈ back) : ¬ Below y path := by
  subst split
  intro below
  have same := (List.pairwise_cons.mp (List.pairwise_append.mp first).2.1).1 y member below
  exact (List.nodup_cons.mp (List.nodup_append.mp nodup).2.1).1 (same ▸ member)

theorem mem_removed {path : CString} (member : q ∈ (tableChange repo table path).removed) :
    ∃ info, table.lookup path = some info ∧ info.removes ∧ Below path q := by
  unfold tableChange at member
  split at member
  · cases member
  · next info found => exact ⟨info, found, member⟩

theorem mem_tableChange_added {path : CString} (found : table.lookup path = some info) :
    q ∈ (tableChange repo table path).added ↔ info.adds ∧ q ∈ addedPaths repo path info.copyfrom := by
  rw [tableChange, found]
  exact Iff.rfl

theorem target_mem_addedPaths (repo : RepoPaths) (path : CString) (copyfrom : Option (CString × Int)) :
    path ∈ addedPaths repo path copyfrom := by
  cases copyfrom with
  | none => exact rfl
  | some source => exact .inl rfl

theorem Applies.applicable (applies : Applies repo revision table before after) (found : table.lookup x = some info) :
    ∃ now, Applicable repo revision x info now := by
  obtain ⟨order, perm, -, steps, -⟩ := applies
  have listed : x ∈ order := perm.mem_iff.mpr (AList.mem_keys.mp (AList.lookup_isSome.mp (by rw [found]; rfl)))
  obtain ⟨front, back, split⟩ := List.append_of_mem listed
  exact ⟨_, steps front x back info split found⟩

/-- The change of a path is followed by those of other paths, none of them above it. -/
theorem Applies.split (applies : Applies repo revision table before after) (found : table.lookup x = some info) :
    ∃ front back : List CString, (∀ y ∈ back, ¬ Below y x) ∧
      ∀ q ≠ [], q ∈ after ↔ q ∈ Overwrite.run (back.map (tableChange repo table))
        (Overwrite.apply (Overwrite.run (front.map (tableChange repo table)) before) (tableChange repo table x)) := by
  obtain ⟨order, perm, first, -, result⟩ := applies
  have nodup : order.Nodup := perm.nodup_iff.mpr table.keys_nodup
  have listed : x ∈ order := perm.mem_iff.mpr (AList.mem_keys.mp (AList.lookup_isSome.mp (by rw [found]; rfl)))
  obtain ⟨front, back, split⟩ := List.append_of_mem listed
  refine ⟨front, back, fun y member => first.later_apart nodup split member, fun q visible => ?_⟩
  rw [← result q visible, split, List.map_append, List.map_cons, Overwrite.run_append, Overwrite.run_cons]

/-- The own change of a path is the last that touches it. -/
theorem Applies.decides (applies : Applies repo revision table before after) (found : table.lookup x = some info)
    (named : x ≠ []) (changes : info.adds ∨ info.removes) : x ∈ after ↔ info.adds := by
  obtain ⟨front, back, later, result⟩ := applies.split found
  have touches : (tableChange repo table x).Touches x := by
    unfold tableChange
    rw [found]
    rcases changes with adds | removes
    · exact .inr ⟨adds, target_mem_addedPaths repo x info.copyfrom⟩
    · exact .inl ⟨removes, below_refl x⟩
  have kept := Overwrite.mem_run_last (tableChange repo table) back (Overwrite.apply
    (Overwrite.run (front.map (tableChange repo table)) before) (tableChange repo table x)) x
  rw [result x named]
  rcases kept with ⟨-, same⟩ | ⟨init, y, rest, split, touched, -⟩
  · rw [same, Overwrite.mem_apply_touched touches, mem_tableChange_added found]
    exact and_iff_left (target_mem_addedPaths repo x info.copyfrom)
  · exact absurd (tableChange_touches touched) (later y (by simp [split]))

theorem Applies.deleted (applies : Applies repo revision table before after) (found : table.lookup d = some info)
    (deleted : info.action = .delete) : d ∉ after := by
  obtain ⟨now, applicable⟩ := applies.applicable found
  have named : d ≠ [] := by
    intro root
    rw [applicable.root root] at deleted
    cases deleted
  rw [applies.decides found named (.inr (.inl deleted))]
  rintro (wrong | wrong) <;> simp [deleted] at wrong

/-- The paths an edit adds: parents first, all of them there afterwards, and all that is below one of them. -/
structure Growth (visited : List CString) (after : Set CString) : Prop where
  first : ParentsFirst visited
  kept : ∀ x ∈ visited, x ∈ after
  below : ∀ x ∈ visited, ∀ q ∈ after, Below x q → q ∈ visited

/-- The copy a path comes with is the nearest one. -/
theorem SuppliedFrom.nearest (first : ParentsFirst visited) (supplied : SuppliedFrom repo table visited source q) :
    ∃ x ∈ visited, ∃ info original, table.lookup x = some info ∧ info.adds ∧ info.copyfrom = some (source, original) ∧
      q ≠ x ∧ q ∈ copied source x (repo original) ∧ ∀ y ∈ visited, Renews table y q → Below x y → y = x := by
  obtain ⟨front, x, back, info, original, rfl, found, adds, copies, other, brings, last⟩ := supplied
  refine ⟨x, by simp, info, original, found, adds, copies, other, brings, fun y member renews below => ?_⟩
  rcases List.mem_append.mp member with early | late
  · exact (List.pairwise_append.mp first).2.2 y early x List.mem_cons_self below
  · rcases List.mem_cons.mp late with same | late
    · exact same
    · exact absurd renews (last y late)

/-- After a copy has brought a path, it can only get lost to a deletion or a replacement below the copy. -/
theorem lost_below_copy {between : List CString} {now : Set CString} (found : table.lookup x = some info) (adds : info.adds)
    {original : Int} (copies : info.copyfrom = some (source, original)) (brings : q ∈ copied source x (repo original))
    (later : ∀ y ∈ between, ¬ Below y x)
    (gone : q ∉ Overwrite.run (between.map (tableChange repo table)) (Overwrite.apply now (tableChange repo table x))) :
    ∃ y ∈ between, ∃ info', table.lookup y = some info' ∧ info'.removes ∧ Below y q ∧ Below x y ∧ y ≠ x := by
  have there : q ∈ Overwrite.apply now (tableChange repo table x) := by
    refine .inl ((mem_tableChange_added found).mpr ⟨adds, ?_⟩)
    rw [copies]
    exact brings
  obtain ⟨init, y, rest, split, removed, -, -⟩ := Overwrite.exists_removed (tableChange repo table) there gone
  obtain ⟨info', found', removes, below⟩ := mem_removed removed
  have member : y ∈ between := by simp [split]
  refine ⟨y, member, info', found', removes, below, ?_, ?_⟩
  · exact ((below_of_mem_copied brings).total below).resolve_right (later y member)
  · rintro rfl
    exact later y member (below_refl y)

/-- A path that is replaced below a copy and stays would be the nearer one. -/
theorem Growth.not_replaced (growth : Growth visited after) {y : CString} (member : x ∈ visited)
    (nearest : ∀ y ∈ visited, Renews table y q → Below x y → y = x) (found : table.lookup y = some info)
    (replaced : info.action = .replace) (inside : y ∈ after) (below : Below y q) (other : q ≠ y) (under : Below x y) : y = x :=
  nearest y (growth.below x member y inside under) ⟨below, other, info, found, .inr replaced⟩ under

theorem not_adds_of_modify {info : ChangedPath} (modified : info.action = .modify) : ¬ info.adds := by
  rintro (wrong | wrong) <;> rw [modified] at wrong <;> cases wrong

-- The log lists a path as added only if it is not there, so that it has not come with a copy.

/-- A path that the log adds does not come with a copy. -/
theorem Applies.added (applies : Applies repo revision table before after) (tree : PathTree after) (growth : Growth visited after)
    (member : x ∈ visited) (found : table.lookup x = some info) (added : info.action = .add) :
    ¬ SuppliedFrom repo table visited source x := by
  intro supplied
  obtain ⟨x₀, visits, info₀, original, found₀, adds, copies, other, brings, nearest⟩ := supplied.nearest growth.first
  have origin := applies
  obtain ⟨order, perm, first, steps, -⟩ := applies
  have nodup : order.Nodup := perm.nodup_iff.mpr table.keys_nodup
  have listed : ∀ {y info}, table.lookup y = some info → y ∈ order := fun found =>
    perm.mem_iff.mpr (AList.mem_keys.mp (AList.lookup_isSome.mp (by rw [found]; rfl)))
  obtain ⟨front, back, split⟩ := List.append_of_mem (listed found)
  -- the copy comes first, since it is above the path
  have early : x₀ ∈ front := by
    have inside := listed found₀
    rw [split, List.mem_append, List.mem_cons] at inside
    rcases inside with early | same | late
    · exact early
    · exact absurd same.symm other
    · exact absurd (below_of_mem_copied brings) (first.later_apart nodup split late)
  obtain ⟨init, mid, rfl⟩ := List.append_of_mem early
  have whole : order = init ++ x₀ :: (mid ++ x :: back) := by rw [split]; simp
  have absent := (steps _ x back info split found).absent added
  rw [List.map_append, List.map_cons, Overwrite.run_append, Overwrite.run_cons] at absent
  obtain ⟨y, inside, info', found', removes, below, under, proper⟩ := lost_below_copy found₀ adds copies brings
    (fun y member => first.later_apart nodup whole (List.mem_append_left _ member)) absent
  have named : y ≠ [] := by
    rintro rfl
    exact first.later_apart nodup whole (List.mem_append_left _ inside) (below_nil x₀)
  have apart : x ≠ y := by
    rintro rfl
    rw [split, List.nodup_append] at nodup
    exact nodup.2.2 x (by simp [inside]) x List.mem_cons_self rfl
  have kept := tree.up (growth.kept x member) below named
  rcases removes with deleted | replaced
  · exact origin.deleted found' deleted kept
  · exact proper (growth.not_replaced visits nearest found' replaced kept below apart under)

/-- What a copy brings and is not there afterwards has been deleted below the copy. -/
theorem SuppliedFrom.deleted (supplied : SuppliedFrom repo table visited source q)
    (applies : Applies repo revision table before after) (growth : Growth visited after) (named : q ≠ []) (gone : q ∉ after) :
    ∃ d info, table.lookup d = some info ∧ info.action = .delete ∧ Below d q ∧ ∃ x ∈ visited, Below x d ∧ d ≠ x := by
  obtain ⟨x, visits, info, original, found, adds, copies, other, brings, nearest⟩ := supplied.nearest growth.first
  obtain ⟨front, back, later, result⟩ := applies.split found
  obtain ⟨y, inside, info', found', removes, below, under, proper⟩ := lost_below_copy found adds copies brings later
    fun member => gone ((result q named).mpr member)
  rcases removes with deleted | replaced
  · exact ⟨y, info', found', deleted, below, x, visits, under, proper⟩
  · have root : y ≠ [] := by
      rintro rfl
      exact later [] inside (below_nil x)
    have kept : y ∈ after := (applies.decides found' root (.inl (.inr replaced))).mpr (.inr replaced)
    have apart : q ≠ y := fun same => gone (same ▸ kept)
    exact absurd (growth.not_replaced visits nearest found' replaced kept below apart under) proper

end Applied

/-- The condition under which the records of an edit can be loaded: what is added by the editor but replaced or modified
by the log comes with a copy, what the log does not list does not come with a copy of the root, and what the log deletes
has been deleted by the editor or comes with a copy. -/
structure Backed (repo : RepoPaths) (table : AprHash ChangedPath) (edit : TreeEdit) : Prop where
  changed : ∀ x ∈ edit.added, ∀ info, table.lookup x = some info → info.action = .replace ∨ info.action = .modify →
    Supplied repo table edit.added x
  silent : ∀ x ∈ edit.added, table.lookup x = none → ¬ SuppliedFrom repo table edit.added [] x
  deleted : ∀ d info, table.lookup d = some info → info.action = .delete →
    (∃ p ∈ edit.deleted, p ∉ edit.added ∧ Below p d) ∨ Supplied repo table edit.added d

end Rsvndump
