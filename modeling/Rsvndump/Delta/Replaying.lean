import Rsvndump.Delta.Loading

/-! The records of an edit on the loader.

While an edit is loaded, the loader holds the paths the edit has made so far and those the
copies have brought along.
-/

set_option autoImplicit false

namespace Rsvndump

open Library

variable (baton : DeBaton) (repo : RepoPaths) (table : AprHash ChangedPath)

/-! ## What is dumped -/

def IsAdd (path : CString) (copyfrom : Option (CString × Int)) (record : NodeRecord) : Prop :=
  record.action = .add ∧ record.path = printedPath baton path ∧
    record.copyfrom = copyfrom.map fun source => (printedPath baton source.1, source.2)

def IsChange (path : CString) (record : NodeRecord) : Prop :=
  record.action = .modify ∧ record.path = printedPath baton path

/-- The entry made for a node that has been dumped and not deleted. -/
def Present (path : CString) (node : DeNode) : Prop :=
  node.path = path ∧ node.action ≠ .delete ∧ node.cpInfo.isFailed = false

/-- The path comes with a copy of a directory other than the root. -/
def Cloned (visited : List CString) (path : CString) : Prop := ∃ source ≠ [], SuppliedFrom repo table visited source path

/-- What is dumped for an added path. The log decides, and what it does not list is left to a copy that brings it. -/
inductive AddEmits (visited : List CString) (path : CString) : List NodeRecord → List DeNode → Prop
  | added {info : ChangedPath} {record : NodeRecord} {node : DeNode} : table.lookup path = some info → info.action = .add →
      IsAdd baton path info.copyfrom record → Present path node → AddEmits visited path [record] [node]
  | replaced {info : ChangedPath} {record : NodeRecord} {node : DeNode} : table.lookup path = some info →
      info.action = .replace → IsAdd baton path info.copyfrom record → Present path node →
      AddEmits visited path [deleteRecord baton path, record] [node]
  | modified {info : ChangedPath} {record : NodeRecord} {node : DeNode} : table.lookup path = some info →
      info.action = .modify → IsChange baton path record → Present path node → AddEmits visited path [record] [node]
  | unchanged {info : ChangedPath} : table.lookup path = some info → info.action = .modify → AddEmits visited path [] []
  | cloned : table.lookup path = none → Cloned repo table visited path → AddEmits visited path [] []
  | plain {record : NodeRecord} {node : DeNode} : table.lookup path = none → ¬ Cloned repo table visited path →
      IsAdd baton path none record → Present path node → AddEmits visited path [record] [node]

/-- An opened path is dumped as changed, or not at all. -/
inductive EnterEmits (path : CString) : List NodeRecord → List DeNode → Prop
  | changed {record : NodeRecord} {node : DeNode} : IsChange baton path record → Present path node →
      EnterEmits path [record] [node]
  | unchanged : EnterEmits path [] []

/-- The records and the entries made for the calls on a directory, when the paths `visited` have been added before. -/
def TreeEdit.Emits : TreeEdit → List CString → List NodeRecord → List DeNode → Prop
  | .done, _, records, marks => records = [] ∧ marks = []
  | .delete path rest, visited, records, marks => ∃ node later nodes,
      records = deleteRecord baton path :: later ∧ marks = node :: nodes ∧ node.path = path ∧ node.action = .delete ∧
        node.cpInfo.isFailed = false ∧ rest.Emits visited later nodes
  | .add path children rest, visited, records, marks => ∃ own mark inner innerMarks later laterMarks,
      records = own ++ (inner ++ later) ∧ marks = mark ++ (innerMarks ++ laterMarks) ∧
        AddEmits baton repo table visited path own mark ∧ children.Emits (visited ++ [path]) inner innerMarks ∧
        rest.Emits (visited ++ [path] ++ children.added) later laterMarks
  | .enter path children rest, visited, records, marks => ∃ own mark inner innerMarks later laterMarks,
      records = own ++ (inner ++ later) ∧ marks = mark ++ (innerMarks ++ laterMarks) ∧ EnterEmits baton path own mark ∧
        children.Emits visited inner innerMarks ∧ rest.Emits (visited ++ children.added) later laterMarks

/-! ## The paths of the loader -/

/-- The paths of the edit and those the copies have brought. -/
def loaded (visited : List CString) (paths : Set CString) : Set CString :=
  {q | q ∈ paths ∨ Supplied repo table visited q}

/-- What the log says of an added path. -/
structure Lawful (revision : Int) (visited : List CString) (x : CString) : Prop where
  absent : ∀ info, table.lookup x = some info → info.action = .add → ¬ Supplied repo table visited x
  kept : ∀ info, table.lookup x = some info → info.action ≠ .delete
  source : ∀ info source original, table.lookup x = some info → info.copyfrom = some (source, original) →
    info.adds ∧ 0 ≤ original ∧ original < revision ∧ (source = [] ∨ source ∈ repo original)

/-- An added path fits to what the copies bring. -/
structure Fitting (revision : Int) (visited : List CString) (x : CString) : Prop extends Lawful repo table revision visited x where
  present : ∀ info, table.lookup x = some info → info.action = .replace ∨ info.action = .modify → Supplied repo table visited x
  silent : table.lookup x = none → ¬ SuppliedFrom repo table visited [] x

variable {baton repo table} {revision : Int} {visited : List CString} {paths : Set CString} {dir x : CString}

theorem mem_loaded {q : CString} : q ∈ loaded repo table visited paths ↔ q ∈ paths ∨ Supplied repo table visited q := Iff.rfl

/-- At the beginning nothing has been brought. -/
theorem loaded_nil : loaded repo table [] paths = paths := by
  ext q
  refine or_iff_left ?_
  rintro ⟨source, supplied⟩
  obtain ⟨v, wrong, -⟩ := supplied.renewed
  cases wrong

/-- What is deleted apart from all added paths is what the edit deletes. -/
theorem loaded_removed (above : ∀ v ∈ visited, ¬ Below v x) (below : ∀ v ∈ visited, ¬ Below x v) :
    {q ∈ loaded repo table visited paths | ¬ Below x q} = loaded repo table visited {q ∈ paths | ¬ Below x q} := by
  ext q
  constructor
  · rintro ⟨inside | supplied, outside⟩
    · exact .inl ⟨inside, outside⟩
    · exact .inr supplied
  · rintro (⟨inside, outside⟩ | supplied)
    · exact ⟨.inl inside, outside⟩
    · refine ⟨.inr supplied, fun under => ?_⟩
      obtain ⟨source, supplied⟩ := supplied
      obtain ⟨v, member, renews⟩ := supplied.renewed
      rcases renews.1.total under with first | second
      · exact above v member first
      · exact below v member second

section Added

variable (trees : ∀ r, PathTree (repo r)) (tree : PathTree paths) (entry : EntryOf dir x) (absent : x ∉ paths)
  (named : ∀ v ∈ visited, v ≠ []) (below : ∀ v ∈ visited, ¬ Below x v)

include tree entry absent

/-- A path that is added or replaced takes the place of all that is at or below it. -/
theorem loaded_renewed {info : ChangedPath} (found : table.lookup x = some info) (adds : info.adds) :
    loaded repo table (visited ++ [x]) (insert x paths) =
      {q ∈ loaded repo table visited paths | ¬ Below x q} ∪ addedPaths repo x info.copyfrom := by
  ext q
  by_cases under : Below x q
  · have outside : q ∉ {q ∈ loaded repo table visited paths | ¬ Below x q} := fun member => member.2 under
    rw [Set.mem_union, or_iff_right outside, mem_loaded]
    by_cases itself : q = x
    · subst itself
      exact iff_of_true (.inl (Set.mem_insert q paths)) (target_mem_addedPaths repo q info.copyfrom)
    have old : q ∉ insert x paths := by
      rintro (same | inside)
      · exact itself same
      · exact absent (tree.up inside under entry.ne_nil)
    rw [or_iff_right old]
    have renews : Renews table x q := ⟨under, itself, info, found, adds⟩
    constructor
    · rintro ⟨source, supplied⟩
      obtain ⟨info', original, found', copies, brings⟩ := (suppliedFrom_snoc renews).mp supplied
      cases Option.some.inj (found.symm.trans found')
      rw [copies]
      exact brings
    · intro member
      cases copies : info.copyfrom with
      | none =>
        rw [copies] at member
        exact absurd member itself
      | some copy =>
        rw [copies] at member
        exact ⟨copy.1, (suppliedFrom_snoc renews).mpr ⟨info, copy.2, found, copies, member⟩⟩
  · have other : q ≠ x := fun same => under (same ▸ below_refl x)
    have apart : ∀ y ∈ [x], ¬ Renews table y q := by
      intro y member renews
      rw [List.mem_singleton.mp member] at renews
      exact under renews.1
    have new : q ∉ addedPaths repo x info.copyfrom := fun member => under (below_of_mem_addedPaths member)
    rw [Set.mem_union, or_iff_left new, mem_loaded, supplied_append apart, Set.mem_insert_iff, or_iff_right other]
    exact (and_iff_left under).symm

omit tree entry absent in
/-- A path that the log neither adds nor replaces brings nothing. -/
theorem loaded_silent (quiet : ∀ info, table.lookup x = some info → ¬ info.adds) :
    loaded repo table (visited ++ [x]) (insert x paths) = insert x (loaded repo table visited paths) := by
  ext q
  have apart : ∀ y ∈ [x], ¬ Renews table y q := by
    intro y member renews
    obtain ⟨-, -, info, found, adds⟩ := renews
    exact quiet info (by rw [← List.mem_singleton.mp member]; exact found) adds
  rw [mem_loaded, supplied_append apart, Set.mem_insert_iff, Set.mem_insert_iff, mem_loaded, or_assoc]

include trees named below

/-- Where nothing is supplied, nothing is there below a path either. -/
theorem loaded_apart (unsupplied : ¬ Supplied repo table visited x) :
    {q ∈ loaded repo table visited paths | ¬ Below x q} = loaded repo table visited paths := by
  ext q
  refine and_iff_left_of_imp fun member under => ?_
  rcases member with inside | ⟨source, supplied⟩
  · exact absent (tree.up inside under entry.ne_nil)
  · exact unsupplied ⟨source, supplied.up trees named under below⟩

end Added

/-! ## Steps -/

theorem loads_added {shown : CString → CString} {repo : RepoPaths} {revision : Int} {record : NodeRecord}
    {before : Set CString} {path : CString} {copyfrom : Option (CString × Int)} (action : record.action = .add)
    (place : record.path = shown path) (copies : record.copyfrom = copyfrom.map fun source => (shown source.1, source.2))
    (valid : ∀ source original, copyfrom = some (source, original) →
      0 ≤ original ∧ original < revision ∧ (source = [] ∨ source ∈ repo original))
    (absent : path ∉ before) (parent : ParentIn path before) :
    Loads shown repo revision record before (before ∪ addedPaths repo path copyfrom) := by
  cases copyfrom with
  | none =>
    rw [addedPaths, Set.union_singleton]
    exact .add action place copies absent parent
  | some source =>
    obtain ⟨nonneg, earlier, there⟩ := valid source.1 source.2 rfl
    exact .copy action place copies nonneg earlier there absent parent

theorem ParentIn.mono {path : CString} {paths more : Set CString} (parent : ParentIn path paths)
    (subset : ∀ q ∈ paths, q ∈ more) : ParentIn path more :=
  parent.imp_right (subset _)

theorem AddEmits.replays {own : List NodeRecord} {mark : List DeNode} (emits : AddEmits baton repo table visited x own mark)
    (trees : ∀ r, PathTree (repo r)) (tree : PathTree paths) (entry : EntryOf dir x) (there : dir = [] ∨ dir ∈ paths)
    (absent : x ∉ paths) (named : ∀ v ∈ visited, v ≠ []) (below : ∀ v ∈ visited, ¬ Below x v)
    (fits : Fitting repo table revision visited x) :
    Replays (printedPath baton) repo revision own (loaded repo table visited paths)
      (loaded repo table (visited ++ [x]) (insert x paths)) := by
  have parent : ParentIn x (loaded repo table visited paths) := (entry.parentIn there).mono fun _ => .inl
  cases emits with
  | added found action adds =>
    have unsupplied := fits.absent _ found action
    have out : x ∉ loaded repo table visited paths := not_or.mpr ⟨absent, unsupplied⟩
    rw [loaded_renewed tree entry absent found (.inl action), loaded_apart trees tree entry absent named below unsupplied]
    exact .single (loads_added adds.1 adds.2.1 adds.2.2 (fun source original copies => (fits.source _ source original found copies).2)
      out parent)
  | replaced found action adds =>
    -- the deletion of a replacement needs the path, and only a copy can have brought it
    have supplied : x ∈ loaded repo table visited paths := .inr (fits.present _ found (.inl action))
    rw [loaded_renewed tree entry absent found (.inr action)]
    refine .cons (.delete rfl rfl supplied) (.single (loads_added adds.1 adds.2.1 adds.2.2
      (fun source original copies => (fits.source _ source original found copies).2) (fun member => member.2 (below_refl x)) ?_))
    refine (entry.parentIn there).imp_right fun inside => ⟨.inl inside, fun under => ?_⟩
    rw [entry.dirname] at under
    exact entry.ne (under.antisymm entry.below)
  | modified found action change =>
    have supplied : x ∈ loaded repo table visited paths := .inr (fits.present _ found (.inr action))
    rw [loaded_silent fun info found' adds => ?_, Set.insert_eq_of_mem supplied]
    · exact .single (.change change.1 change.2 (.inr supplied))
    · cases Option.some.inj (found.symm.trans found')
      exact not_adds_of_modify action adds
  | unchanged found action =>
    have supplied : x ∈ loaded repo table visited paths := .inr (fits.present _ found (.inr action))
    rw [loaded_silent fun info found' adds => ?_, Set.insert_eq_of_mem supplied]
    · exact .nil _
    · cases Option.some.inj (found.symm.trans found')
      exact not_adds_of_modify action adds
  | cloned none copies =>
    obtain ⟨source, -, supplied⟩ := copies
    rw [loaded_silent fun info found => ?_, Set.insert_eq_of_mem (.inr ⟨source, supplied⟩)]
    · exact .nil _
    · rw [none] at found
      cases found
  | plain none own adds =>
    -- a copy of the root is not asked for, but may have brought the path
    have out : x ∉ loaded repo table visited paths := by
      rintro (inside | ⟨source, supplied⟩)
      · exact absent inside
      · refine own ⟨source, ?_, supplied⟩
        rintro rfl
        exact fits.silent none supplied
    rw [loaded_silent fun info found => ?_]
    · exact .single (.add adds.1 adds.2.1 adds.2.2 out parent)
    · rw [none] at found
      cases found

theorem EnterEmits.replays {own : List NodeRecord} {mark : List DeNode} (emits : EnterEmits baton x own mark)
    (present : x ∈ paths) :
    Replays (printedPath baton) repo revision own (loaded repo table visited paths) (loaded repo table visited paths) := by
  cases emits with
  | changed change => exact .single (.change change.1 change.2 (.inr (.inl present)))
  | unchanged => exact .nil _

/-! ## Runs -/

/-- Nothing that has been added is comparable with what is still to be visited: it is not below it, and it is above it only
in a directory that has been added itself. -/
structure Unvisited (edit : TreeEdit) (fresh : Bool) (visited : List CString) : Prop where
  named : ∀ v ∈ visited, v ≠ []
  below : ∀ v ∈ visited, ∀ p ∈ edit.entries, ¬ Below p v
  above : fresh = false → ∀ v ∈ visited, ∀ p ∈ edit.entries, ¬ Below v p

theorem Unvisited.tail {edit rest : TreeEdit} {fresh : Bool} {path : CString} (apart : Unvisited edit fresh visited)
    (split : edit.entries = path :: rest.entries) : Unvisited rest fresh visited where
  named := apart.named
  below v member p inside := apart.below v member p (split ▸ List.mem_cons_of_mem path inside)
  above opened v member p inside := apart.above opened v member p (split ▸ List.mem_cons_of_mem path inside)

section Unvisited

variable {children rest : TreeEdit} {fresh inner : Bool} {path : CString} {before mid after : Set CString}

/-- Calls on a directory that is visited now. -/
theorem unvisited_children (leads : children.Leads inner path before mid) (named : ∀ v ∈ visited, v ≠ [])
    (below : ∀ v ∈ visited, Below path v → v = path) (above : inner = false → ∀ v ∈ visited, ¬ Below v path) :
    Unvisited children inner visited where
  named := named
  below v member p inside under := by
    have entry := leads.entryOf inside
    have same := below v member (entry.below.trans under)
    exact entry.ne ((same ▸ under).antisymm entry.below)
  above opened v member p inside deeper := by
    rcases deeper.total (leads.entryOf inside).below with first | second
    · exact above opened v member first
    · exact above opened v member (below v member second ▸ below_refl v)

/-- The calls that are left after an entry and what has been added below it. -/
theorem unvisited_rest (entry : EntryOf dir path) (leads : rest.Leads fresh dir mid after) (once : path ∉ rest.entries)
    (old : Unvisited rest fresh visited) {new : List CString} (under : ∀ v ∈ new, Below path v) :
    Unvisited rest fresh (visited ++ new) where
  named v member := by
    rcases List.mem_append.mp member with member | member
    · exact old.named v member
    · rintro rfl
      exact entry.ne_nil (below_nil_right.mp (under [] member))
  below v member p inside below := by
    rcases List.mem_append.mp member with member | member
    · exact old.below v member p inside below
    · exact leads.rest_apart entry once (under v member) p inside below
  above opened v member p inside above := by
    rcases List.mem_append.mp member with member | member
    · exact old.above opened v member p inside above
    · exact leads.rest_apart entry once ((under v member).trans above) p inside (below_refl p)

/-- Calls on an added directory. -/
theorem Unvisited.children_added {edit : TreeEdit} (apart : Unvisited edit fresh visited) (listed : path ∈ edit.entries)
    (entry : EntryOf dir path) (leads : children.Leads true path before mid) : Unvisited children true (visited ++ [path]) := by
  refine unvisited_children leads (fun v member => ?_) (fun v member under => ?_) fun wrong => nomatch wrong
  · rcases List.mem_append.mp member with member | member
    · exact apart.named v member
    · exact List.mem_singleton.mp member ▸ entry.ne_nil
  · rcases List.mem_append.mp member with member | member
    · exact absurd under (apart.below v member path listed)
    · exact List.mem_singleton.mp member

/-- Calls on an opened directory. -/
theorem Unvisited.children_opened {edit : TreeEdit} (apart : Unvisited edit false visited) (listed : path ∈ edit.entries)
    (leads : children.Leads false path before mid) : Unvisited children false visited :=
  unvisited_children leads apart.named (fun v member under => absurd under (apart.below v member path listed))
    fun _ v member => apart.above rfl v member path listed

end Unvisited

theorem TreeEdit.Emits.replays {edit : TreeEdit} {fresh : Bool} {before after : Set CString} {records : List NodeRecord}
    {marks : List DeNode} (emits : edit.Emits baton repo table visited records marks)
    (leads : edit.Leads fresh dir before after) (trees : ∀ r, PathTree (repo r)) (tree : PathTree before)
    (there : dir = [] ∨ dir ∈ before) (apart : Unvisited edit fresh visited)
    (fits : HoldsAlong (Fitting repo table revision) visited edit.added) :
    Replays (printedPath baton) repo revision records (loaded repo table visited before)
      (loaded repo table (visited ++ edit.added) after) := by
  induction edit generalizing fresh dir before after visited records marks with
  | done =>
    obtain ⟨rfl, -⟩ := emits
    rw [TreeEdit.added, List.append_nil, show before = after from leads]
    exact .nil _
  | delete path rest ih =>
    obtain ⟨node, later, nodes, rfl, -, -, -, -, emits⟩ := emits
    obtain ⟨opened, entry, present, leads⟩ := leads
    have above := fun v member => apart.above opened v member path List.mem_cons_self
    have below := fun v member => apart.below v member path List.mem_cons_self
    refine .cons (.delete rfl rfl (.inl present)) ?_
    -- no copy brings anything at or below a deleted entry
    rw [loaded_removed above below]
    refine ih emits leads (tree.removed path) (there.imp_right fun inside => ⟨inside, fun under => ?_⟩) (apart.tail rfl) fits
    exact entry.ne (under.antisymm entry.below)
  | add path children rest ihChildren ihRest =>
    obtain ⟨own, mark, inner, innerMarks, later, laterMarks, rfl, -, adds, below, others⟩ := emits
    obtain ⟨entry, absent, once, mid, childrenLead, restLead⟩ := leads
    obtain ⟨fitting, along⟩ := fits
    obtain ⟨fitsBelow, fitsLater⟩ := holdsAlong_append.mp along
    have grown := tree.entry entry there
    have first := adds.replays trees tree entry there absent apart.named
      (fun v member => apart.below v member path List.mem_cons_self) fitting
    have second := ihChildren below childrenLead grown (.inr (Set.mem_insert path before))
      (apart.children_added List.mem_cons_self entry childrenLead) fitsBelow
    -- the directory and all that is added in it have been visited before the rest
    have left : Unvisited rest fresh (visited ++ [path] ++ children.added) := by
      rw [List.append_assoc]
      exact unvisited_rest entry restLead once (apart.tail rfl) childrenLead.added_under
    have third := ihRest others restLead (childrenLead.tree grown (.inr (Set.mem_insert path before)))
      (there.imp_right fun inside => (childrenLead.above_kept entry.below).mpr (.inr inside)) left fitsLater
    have whole := first.append (second.append third)
    simpa [TreeEdit.added] using whole
  | enter path children rest ihChildren ihRest =>
    obtain ⟨own, mark, inner, innerMarks, later, laterMarks, rfl, -, changes, below, others⟩ := emits
    obtain ⟨opened, entry, present, once, mid, childrenLead, restLead⟩ := leads
    obtain ⟨fitsBelow, fitsLater⟩ := holdsAlong_append.mp fits
    have first : Replays (printedPath baton) repo revision own (loaded repo table visited before)
        (loaded repo table visited before) := changes.replays present
    have second := ihChildren below childrenLead tree (.inr present)
      (Unvisited.children_opened (opened ▸ apart) List.mem_cons_self childrenLead) fitsBelow
    have third := ihRest others restLead (childrenLead.tree tree (.inr present))
      (there.imp_right fun inside => (childrenLead.above_kept entry.below).mpr inside)
      (unvisited_rest entry restLead once (apart.tail rfl) fun v member => childrenLead.children_reached (.inl member)) fitsLater
    have whole := first.append (second.append third)
    simpa [TreeEdit.added] using whole

/-! ## Entries -/

/-- The table of dumped entries after some nodes have been entered, the later ones in place of the earlier. -/
def entered (base : AprHash DeNode) (marks : List DeNode) : AprHash DeNode := marks.foldl (fun h node => h.insert node.path node) base

theorem entered_append (base : AprHash DeNode) (marks more : List DeNode) :
    entered base (marks ++ more) = entered (entered base marks) more :=
  List.foldl_append

/-- The last node entered for a path is the one that is found. -/
theorem lookup_entered (base : AprHash DeNode) (marks : List DeNode) (q : CString) :
    (∀ m ∈ marks, m.path ≠ q) ∧ (entered base marks).lookup q = base.lookup q ∨
      ∃ front node back, marks = front ++ node :: back ∧ node.path = q ∧ (∀ m ∈ back, m.path ≠ q) ∧
        (entered base marks).lookup q = some node := by
  induction marks using List.reverseRecOn with
  | nil => exact .inl ⟨by simp, rfl⟩
  | append_singleton marks last ih =>
    have step : (entered base (marks ++ [last])).lookup q =
        if q = last.path then some last else (entered base marks).lookup q := by
      rw [entered_append]
      change ((entered base marks).insert last.path last).lookup q = _
      split
      · next same => rw [same, AList.lookup_insert]
      · next other => rw [AList.lookup_insert_ne other]
    by_cases own : q = last.path
    · exact .inr ⟨marks, last, [], rfl, own.symm, by simp, by rw [step, if_pos own]⟩
    rw [step, if_neg own]
    rcases ih with ⟨none, same⟩ | ⟨front, node, back, rfl, path, after, found⟩
    · refine .inl ⟨fun m member => ?_, same⟩
      rcases List.mem_append.mp member with member | member
      · exact none m member
      · rw [List.mem_singleton.mp member]
        exact fun wrong => own wrong.symm
    · refine .inr ⟨front, node, back ++ [last], by simp, path, fun m member => ?_, found⟩
      rcases List.mem_append.mp member with member | member
      · exact after m member
      · rw [List.mem_singleton.mp member]
        exact fun wrong => own wrong.symm

theorem AddEmits.present {own : List NodeRecord} {mark : List DeNode} (emits : AddEmits baton repo table visited x own mark)
    {node : DeNode} (member : node ∈ mark) : Present x node := by
  cases emits with
  | added _ _ _ present => exact List.mem_singleton.mp member ▸ present
  | replaced _ _ _ present => exact List.mem_singleton.mp member ▸ present
  | modified _ _ _ present => exact List.mem_singleton.mp member ▸ present
  | unchanged => cases member
  | cloned => cases member
  | plain _ _ _ present => exact List.mem_singleton.mp member ▸ present

theorem EnterEmits.present {own : List NodeRecord} {mark : List DeNode} (emits : EnterEmits baton x own mark) {node : DeNode}
    (member : node ∈ mark) : Present x node := by
  cases emits with
  | changed change present => exact List.mem_singleton.mp member ▸ present
  | unchanged => cases member

section Marks

variable {edit : TreeEdit} {fresh : Bool} {before after : Set CString} {records : List NodeRecord} {marks : List DeNode}

/-- A node is entered as deleted for a path that is deleted, and otherwise for one that has been visited and is there
afterwards. -/
theorem TreeEdit.Emits.marked (emits : edit.Emits baton repo table visited records marks)
    (leads : edit.Leads fresh dir before after) {node : DeNode} (member : node ∈ marks) :
    node.cpInfo.isFailed = false ∧ (node.action = .delete → node.path ∈ edit.deleted) ∧
      (node.action ≠ .delete → node.path ∈ after ∧ ∃ p ∈ edit.entries, Below p node.path) := by
  induction edit generalizing fresh dir before after visited records marks with
  | done =>
    obtain ⟨-, rfl⟩ := emits
    cases member
  | delete path rest ih =>
    obtain ⟨own, later, nodes, -, rfl, place, action, unfailed, emits⟩ := emits
    rcases List.mem_cons.mp member with rfl | member
    · exact ⟨unfailed, fun _ => place ▸ List.mem_cons_self, fun wrong => absurd action wrong⟩
    · obtain ⟨unfailed, gone, kept⟩ := ih emits leads.2.2.2 member
      refine ⟨unfailed, fun deleted => List.mem_cons_of_mem path (gone deleted), fun action => ?_⟩
      obtain ⟨inside, p, visits, under⟩ := kept action
      exact ⟨inside, p, List.mem_cons_of_mem path visits, under⟩
  | add path children rest ihChildren ihRest =>
    obtain ⟨own, mark, inner, innerMarks, later, laterMarks, -, rfl, adds, below, others⟩ := emits
    obtain ⟨entry, -, once, mid, childrenLead, restLead⟩ := leads
    simp only [List.mem_append] at member
    rcases member with member | member | member
    · obtain ⟨place, action, unfailed⟩ := adds.present member
      refine ⟨unfailed, fun deleted => absurd deleted action, fun _ => ?_⟩
      rw [place, restLead.rest_kept entry once (below_refl path), childrenLead.above_kept (below_refl path)]
      exact ⟨Set.mem_insert path before, path, List.mem_cons_self, below_refl path⟩
    · obtain ⟨unfailed, gone, kept⟩ := ihChildren below childrenLead member
      refine ⟨unfailed, fun deleted => List.mem_append_left _ (gone deleted), fun action => ?_⟩
      obtain ⟨inside, p, visits, under⟩ := kept action
      have under := (childrenLead.entryOf visits).below.trans under
      exact ⟨(restLead.rest_kept entry once under).mpr inside, path, List.mem_cons_self, under⟩
    · obtain ⟨unfailed, gone, kept⟩ := ihRest others restLead member
      refine ⟨unfailed, fun deleted => List.mem_append_right _ (gone deleted), fun action => ?_⟩
      obtain ⟨inside, p, visits, under⟩ := kept action
      exact ⟨inside, p, List.mem_cons_of_mem path visits, under⟩
  | enter path children rest ihChildren ihRest =>
    obtain ⟨own, mark, inner, innerMarks, later, laterMarks, -, rfl, changes, below, others⟩ := emits
    obtain ⟨-, entry, present, once, mid, childrenLead, restLead⟩ := leads
    simp only [List.mem_append] at member
    rcases member with member | member | member
    · obtain ⟨place, action, unfailed⟩ := changes.present member
      refine ⟨unfailed, fun deleted => absurd deleted action, fun _ => ?_⟩
      rw [place, restLead.rest_kept entry once (below_refl path), childrenLead.above_kept (below_refl path)]
      exact ⟨present, path, List.mem_cons_self, below_refl path⟩
    · obtain ⟨unfailed, gone, kept⟩ := ihChildren below childrenLead member
      refine ⟨unfailed, fun deleted => List.mem_append_left _ (gone deleted), fun action => ?_⟩
      obtain ⟨inside, p, visits, under⟩ := kept action
      have under := (childrenLead.entryOf visits).below.trans under
      exact ⟨(restLead.rest_kept entry once under).mpr inside, path, List.mem_cons_self, under⟩
    · obtain ⟨unfailed, gone, kept⟩ := ihRest others restLead member
      refine ⟨unfailed, fun deleted => List.mem_append_right _ (gone deleted), fun action => ?_⟩
      obtain ⟨inside, p, visits, under⟩ := kept action
      exact ⟨inside, p, List.mem_cons_of_mem path visits, under⟩

/-- Every deletion is entered. -/
theorem TreeEdit.Emits.mark_deleted (emits : edit.Emits baton repo table visited records marks) {p : CString}
    (gone : p ∈ edit.deleted) : ∃ node ∈ marks, node.path = p ∧ node.action = .delete := by
  induction edit generalizing visited records marks with
  | done => cases gone
  | delete path rest ih =>
    obtain ⟨own, later, nodes, -, rfl, place, action, -, emits⟩ := emits
    rcases List.mem_cons.mp gone with rfl | gone
    · exact ⟨own, List.mem_cons_self, place, action⟩
    · obtain ⟨node, member, found⟩ := ih emits gone
      exact ⟨node, List.mem_cons_of_mem own member, found⟩
  | add path children rest ihChildren ihRest =>
    obtain ⟨own, mark, inner, innerMarks, later, laterMarks, -, rfl, -, below, others⟩ := emits
    rcases List.mem_append.mp gone with gone | gone
    · obtain ⟨node, member, found⟩ := ihChildren below gone
      exact ⟨node, by simp [member], found⟩
    · obtain ⟨node, member, found⟩ := ihRest others gone
      exact ⟨node, by simp [member], found⟩
  | enter path children rest ihChildren ihRest =>
    obtain ⟨own, mark, inner, innerMarks, later, laterMarks, -, rfl, -, below, others⟩ := emits
    rcases List.mem_append.mp gone with gone | gone
    · obtain ⟨node, member, found⟩ := ihChildren below gone
      exact ⟨node, by simp [member], found⟩
    · obtain ⟨node, member, found⟩ := ihRest others gone
      exact ⟨node, by simp [member], found⟩

/-- Some node for the path is entered as present, and behind it none as deleted. -/
def EndsPresent (marks : List DeNode) (q : CString) : Prop :=
  ∃ front node back, marks = front ++ node :: back ∧ node.path = q ∧ node.action ≠ .delete ∧
    ∀ m ∈ back, m.path = q → m.action ≠ .delete

theorem EndsPresent.append {q : CString} {more : List DeNode} (ends : EndsPresent marks q)
    (rest : ∀ m ∈ more, m.path = q → m.action ≠ .delete) (front : List DeNode) : EndsPresent (front ++ (marks ++ more)) q := by
  obtain ⟨init, node, back, rfl, place, action, last⟩ := ends
  refine ⟨front ++ init, node, back ++ more, by simp, place, action, fun m member => ?_⟩
  exact (List.mem_append.mp member).elim (last m) (rest m)

/-- The entries that are left delete others, but nothing at or below this one. -/
theorem TreeEdit.Emits.rest_quiet {rest : TreeEdit} {path q : CString} (others : rest.Emits baton repo table visited records marks)
    (leads : rest.Leads fresh dir before after) (entry : EntryOf dir path) (once : path ∉ rest.entries) (under : Below path q) :
    ∀ m ∈ marks, m.path = q → m.action ≠ .delete := by
  intro m member place deleted
  have gone := (others.marked leads member).2.1 deleted
  rw [place] at gone
  exact leads.rest_reached_apart entry once under (.inr gone) (below_refl q)

/-- An added path that no copy can bring is entered as present, also if it has been deleted before. -/
theorem TreeEdit.Emits.mark_added (emits : edit.Emits baton repo table visited records marks)
    (leads : edit.Leads fresh dir before after) {q : CString} (new : q ∈ edit.added)
    (top : ∀ v ∈ visited ++ edit.added, ¬ Renews table v q)
    (listed : ∀ info, table.lookup q = some info → info.action ≠ .modify) : EndsPresent marks q := by
  induction edit generalizing fresh dir before after visited records marks with
  | done => cases new
  | delete path rest ih =>
    obtain ⟨own, later, nodes, -, rfl, -, -, -, emits⟩ := emits
    have ends : EndsPresent ([own] ++ (nodes ++ [])) q := (ih emits leads.2.2.2 new top).append (by simp) [own]
    simpa using ends
  | add path children rest ihChildren ihRest =>
    obtain ⟨own, mark, inner, innerMarks, later, laterMarks, -, rfl, adds, below, others⟩ := emits
    obtain ⟨entry, -, once, mid, childrenLead, restLead⟩ := leads
    simp only [added, List.mem_cons, List.mem_append] at new top
    rcases new with rfl | new | new
    · have single : ∃ node, mark = [node] ∧ Present q node := by
        cases adds with
        | added _ _ _ present => exact ⟨_, rfl, present⟩
        | replaced _ _ _ present => exact ⟨_, rfl, present⟩
        | modified _ _ _ present => exact ⟨_, rfl, present⟩
        | unchanged found action => exact absurd action (listed _ found)
        | cloned none copies =>
          obtain ⟨source, -, supplied⟩ := copies
          obtain ⟨v, member, renews⟩ := supplied.renewed
          exact absurd renews (top v (.inl member))
        | plain _ _ _ present => exact ⟨_, rfl, present⟩
      obtain ⟨node, rfl, place, action, -⟩ := single
      refine ⟨[], node, innerMarks ++ laterMarks, rfl, place, action, fun m member same deleted => ?_⟩
      rcases List.mem_append.mp member with member | member
      · have gone := (below.marked childrenLead member).2.1 deleted
        rw [childrenLead.fresh_deleted] at gone
        cases gone
      · exact others.rest_quiet restLead entry once (below_refl q) m member same deleted
    · refine (ihChildren below childrenLead new (fun v member => top v ?_)).append
        (others.rest_quiet restLead entry once (childrenLead.children_reached (.inl new))) mark
      simp only [List.mem_append, List.mem_singleton] at member
      tauto
    · have ends : EndsPresent (mark ++ innerMarks ++ (laterMarks ++ [])) q :=
        (ihRest others restLead new (fun v member => top v ?_)).append (by simp) (mark ++ innerMarks)
      · simpa using ends
      · simp only [List.mem_append, List.mem_singleton] at member
        tauto
  | enter path children rest ihChildren ihRest =>
    obtain ⟨own, mark, inner, innerMarks, later, laterMarks, -, rfl, -, below, others⟩ := emits
    obtain ⟨-, entry, -, once, mid, childrenLead, restLead⟩ := leads
    simp only [added, List.mem_append] at new top
    rcases new with new | new
    · refine (ihChildren below childrenLead new (fun v member => top v ?_)).append
        (others.rest_quiet restLead entry once (childrenLead.children_reached (.inl new))) mark
      simp only [List.mem_append] at member
      tauto
    · have ends : EndsPresent (mark ++ innerMarks ++ (laterMarks ++ [])) q :=
        (ihRest others restLead new (fun v member => top v ?_)).append (by simp) (mark ++ innerMarks)
      · simpa using ends
      · simp only [List.mem_append] at member
        tauto

end Marks

/-! ## Whole edits -/

/-- Deletions of paths that are there, none of them below an earlier one. -/
theorem replays_deletions {paths : List CString} {before : Set CString} (there : ∀ p ∈ paths, p ∈ before)
    (apart : paths.Pairwise fun a b => ¬ Below a b) :
    Replays (printedPath baton) repo revision (paths.map (deleteRecord baton)) before
      {q ∈ before | ∀ p ∈ paths, ¬ Below p q} := by
  induction paths generalizing before with
  | nil =>
    have same : {q ∈ before | ∀ p ∈ ([] : List CString), ¬ Below p q} = before := by
      ext q
      exact and_iff_left fun p member => absurd member List.not_mem_nil
    rw [same]
    exact .nil before
  | cons path paths ih =>
    obtain ⟨own, others⟩ := List.forall_mem_cons.mp there
    obtain ⟨first, apart⟩ := List.pairwise_cons.mp apart
    refine .cons (.delete rfl rfl own) ?_
    have same : {q ∈ before | ∀ p ∈ path :: paths, ¬ Below p q} =
        {q ∈ {q ∈ before | ¬ Below path q} | ∀ p ∈ paths, ¬ Below p q} := by
      ext q
      simp only [List.forall_mem_cons]
      exact and_assoc.symm
    rw [same]
    exact ih (fun p member => ⟨others p member, first p member⟩) apart

section Edited

variable {edit : TreeEdit} {before after : Set CString}

theorem TreeEdit.Leads.growth (leads : edit.Leads false [] before after) (tree : PathTree before) : Growth edit.added after where
  first := leads.added_first
  kept _ member := leads.added_kept member
  below _ member _ inside below := leads.added_below tree (.inl rfl) member inside below

/-- The paths added so far bring to the next one what all added paths bring. -/
theorem supplied_so_far (leads : edit.Leads false [] before after) {front back : List CString} {source : CString}
    (split : edit.added = front ++ x :: back) :
    SuppliedFrom repo table edit.added source x ↔ SuppliedFrom repo table front source x := by
  rw [split]
  refine suppliedFrom_append fun y member renews => ?_
  rcases List.mem_cons.mp member with rfl | later
  · exact renews.2.1 rfl
  · have first := leads.added_first
    rw [split] at first
    exact renews.2.1 ((List.pairwise_cons.mp (List.pairwise_append.mp first).2.1).1 y later renews.1)

theorem Applies.lawful (applies : Applies repo revision table before after) (leads : edit.Leads false [] before after)
    (tree : PathTree before) : HoldsAlong (Lawful repo table revision) [] edit.added := by
  refine holdsAlong_iff.mpr fun front x back split => ?_
  have member : x ∈ edit.added := by simp [split]
  refine ⟨fun info found action => ?_, fun info found action => ?_, fun info source original found copies => ?_⟩
  · rintro ⟨source, supplied⟩
    exact applies.added (leads.tree tree (.inl rfl)) (leads.growth tree) member found action
      ((supplied_so_far leads split).mpr supplied)
  · exact applies.deleted found action (leads.added_kept member)
  · obtain ⟨now, applicable⟩ := applies.applicable found
    exact applicable.source source original copies

theorem Backed.fitting (backed : Backed repo table edit) (applies : Applies repo revision table before after)
    (leads : edit.Leads false [] before after) (tree : PathTree before) :
    HoldsAlong (Fitting repo table revision) [] edit.added := by
  have lawful := applies.lawful leads tree
  rw [holdsAlong_iff] at lawful ⊢
  intro front x back split
  have member : x ∈ edit.added := by simp [split]
  refine ⟨lawful front x back split, fun info found action => ?_, fun none supplied => ?_⟩
  · obtain ⟨source, supplied⟩ := backed.changed x member info found action
    exact ⟨source, (supplied_so_far leads split).mp supplied⟩
  · exact backed.silent x member none ((supplied_so_far leads split).mpr supplied)

variable {records : List NodeRecord} {marks : List DeNode} {base : AprHash DeNode}

/-- What is deleted for good has been entered as deleted. -/
theorem lookup_deleted (emits : edit.Emits baton repo table visited records marks) (leads : edit.Leads false [] before after)
    {p : CString} (gone : p ∈ edit.deleted) (lost : p ∉ edit.added) :
    ∃ node, (entered base marks).lookup p = some node ∧ node.action = .delete := by
  obtain ⟨own, member, place, -⟩ := emits.mark_deleted gone
  rcases lookup_entered base marks p with ⟨none, -⟩ | ⟨front, node, back, split, path, -, found⟩
  · exact absurd place (none own member)
  · refine ⟨node, found, ?_⟩
    by_contra action
    have inside := ((emits.marked leads (by simp [split] : node ∈ marks)).2.2 action).1
    exact lost (leads.deleted_added gone (path ▸ inside))

/-- A path that the log deletes is open when all that the edit deletes above it is added again. -/
theorem open_undeleted (emits : edit.Emits baton repo table [] records marks) (leads : edit.Leads false [] before after)
    (applies : Applies repo revision table before after)
    (changed : ∀ x ∈ edit.added, ∀ info, table.lookup x = some info → info.action = .modify → Supplied repo table edit.added x)
    (rootOnly : ∀ q node, base.lookup q = some node → q = [slash] ∧ node.action ≠ .delete ∧ node.cpInfo.isFailed = false)
    {d : CString} {info : ChangedPath} (found : table.lookup d = some info) (deleted : info.action = .delete)
    (again : ∀ p ∈ edit.deleted, Below p d → p ∈ edit.added) : Open (entered base marks) d := by
  have absent := applies.deleted found deleted
  obtain ⟨now, applicable⟩ := applies.applicable found
  have named : d ≠ [] := fun root => by
    have wrong := applicable.root root
    rw [deleted] at wrong
    cases wrong
  refine ⟨?_, ?_⟩
  · rcases lookup_entered base marks d with ⟨-, same⟩ | ⟨front, node, back, split, path, -, -⟩
    · rw [same]
      by_contra some
      obtain ⟨node, found⟩ := Option.ne_none_iff_exists'.mp some
      obtain ⟨rfl, -⟩ := rootOnly d node found
      exact ((applicable.plain).resolve_left named).relative rfl
    · -- a node of the path is one of a path that is there in the end, and this one is not
      obtain ⟨-, gone, kept⟩ := emits.marked leads (by simp [split] : node ∈ marks)
      by_cases action : node.action = .delete
      · exact absurd (leads.added_kept (again d (path ▸ gone action) (below_refl d))) absent
      · exact absurd (path ▸ (kept action).1) absent
  · rintro ⟨parent, ⟨root, t, rfl⟩, node, found', covers⟩
    have above : Below parent (parent ++ slash :: t) := below_slash parent t
    rcases lookup_entered base marks parent with ⟨-, same⟩ | ⟨front, last, back, split, path, after', same⟩
    · rw [same] at found'
      obtain ⟨-, action, unfailed⟩ := rootOnly parent node found'
      rcases covers with delete | failed
      · exact action delete
      · simp [unfailed] at failed
    · cases Option.some.inj (found'.symm.trans same)
      obtain ⟨unfailed, gone, -⟩ := emits.marked leads (by simp [split] : node ∈ marks)
      rcases covers with action | failed
      · have gone : parent ∈ edit.deleted := path ▸ gone action
        -- the covering path has been added again, and is entered as present after that
        have new := again parent gone above
        have top : ∀ v ∈ [] ++ edit.added, ¬ Renews table v parent := by
          intro v inside renews
          exact renews.2.1 (leads.deleted_above gone inside renews.1).symm
        have listed : ∀ info, table.lookup parent = some info → info.action ≠ .modify := by
          intro info found modified
          obtain ⟨source, supplied⟩ := changed parent new info found modified
          obtain ⟨v, inside, renews⟩ := supplied.renewed
          exact top v inside renews
        obtain ⟨front', present, back', split', place, kept, last'⟩ := emits.mark_added leads new top listed
        rw [split'] at split
        have tail : node ∈ present :: back' := mem_of_last split.symm fun inside => after' present inside place
        rcases List.mem_cons.mp tail with same | later
        · exact kept (same ▸ action)
        · exact last' node later path action
      · simp [unfailed] at failed

/-- The entry of a path that the log deletes below an added directory is open. -/
theorem open_below_added (emits : edit.Emits baton repo table [] records marks) (leads : edit.Leads false [] before after)
    (tree : PathTree before) (applies : Applies repo revision table before after) (backed : Backed repo table edit)
    (rootOnly : ∀ q node, base.lookup q = some node → q = [slash] ∧ node.action ≠ .delete ∧ node.cpInfo.isFailed = false)
    {d : CString} {info : ChangedPath} (found : table.lookup d = some info) (deleted : info.action = .delete)
    (member : x ∈ edit.added) (below : Below x d) : Open (entered base marks) d := by
  have grown := leads.tree tree (.inl rfl)
  refine open_undeleted emits leads applies (fun y new info found modified => backed.changed y new info found (.inr modified))
    rootOnly found deleted fun p gone above => ?_
  rcases below.total above with under | higher
  · exact leads.deleted_above gone member under ▸ member
  · exact leads.deleted_added gone (grown.up (leads.added_kept member) higher (leads.deleted_ne_nil gone))

/-- An open deletion is one of a path that a copy has brought. -/
theorem Backed.open_supplied (backed : Backed repo table edit) (emits : edit.Emits baton repo table [] records marks)
    (leads : edit.Leads false [] before after) {d : CString}
    (opened : OpenDeletion (entered base marks) table.entries d) : Supplied repo table edit.added d := by
  obtain ⟨⟨info, listed, deleted⟩, missing, uncovered⟩ := opened
  refine (backed.deleted d info (AList.mem_lookup_iff.mpr listed) deleted).resolve_left ?_
  rintro ⟨p, gone, lost, below⟩
  obtain ⟨node, found, action⟩ := @lookup_deleted _ _ _ _ _ _ _ _ _ base emits leads p gone lost
  by_cases same : d = p
  · rw [same, found] at missing
    cases missing
  · have named := leads.deleted_ne_nil gone
    exact uncovered ⟨p, ⟨named, below.exists_rest named same⟩, node, found, .inl action⟩

/-- The records of an edit and those of the deletions that are left make the tree of the revision. -/
theorem Backed.replays (backed : Backed repo table edit) (emits : edit.Emits baton repo table [] records marks)
    (leads : edit.Leads false [] before after) (trees : ∀ r, PathTree (repo r)) (tree : PathTree before)
    (applies : Applies repo revision table before after)
    (rootOnly : ∀ q node, base.lookup q = some node → q = [slash] ∧ node.action ≠ .delete ∧ node.cpInfo.isFailed = false)
    (wet : baton.opts.initialDryRun = false) {sys : Platform} {st st' : DeltaState sys}
    (dumped : st.dumpedEntries = entered base marks) {paths : List CString} (closes : Closes baton st table.entries paths st') :
    Replays (printedPath baton) repo revision (records ++ paths.map (deleteRecord baton)) before after := by
  have grown := leads.tree tree (.inl rfl)
  have first : Replays (printedPath baton) repo revision records (loaded repo table [] before)
      (loaded repo table ([] ++ edit.added) after) :=
    emits.replays leads trees tree (.inl rfl) ⟨by simp, by simp, by simp⟩ (backed.fitting applies leads tree)
  rw [loaded_nil, List.nil_append] at first
  have supplied : ∀ p ∈ paths, Supplied repo table edit.added p := by
    intro p member
    have opened := closes.listed p member
    rw [dumped] at opened
    exact backed.open_supplied emits leads opened
  have visible : ∀ q ∈ loaded repo table edit.added after, q ≠ [] := by
    rintro q (inside | ⟨source, brought⟩)
    · exact grown.ne_nil inside
    · rintro rfl
      obtain ⟨v, member, renews⟩ := brought.renewed
      exact grown.ne_nil (leads.added_kept member) (below_nil_right.mp renews.1)
  have apart : paths.Pairwise fun a b => ¬ Below a b := by
    refine (closes.apart.and closes.nodup).imp_of_mem fun {a b} member _ both below => ?_
    have named := visible a (.inr (supplied a member))
    exact both.1 ⟨named, below.exists_rest named both.2.symm⟩
  -- what a copy brings too much is removed by the deletions, and nothing else is
  have result : {q ∈ loaded repo table edit.added after | ∀ p ∈ paths, ¬ Below p q} = after := by
    ext q
    constructor
    · rintro ⟨inside, left⟩
      by_contra gone
      obtain ⟨source, brought⟩ := inside.resolve_left gone
      obtain ⟨d, info, found, deleted, below, x, member, under, -⟩ := brought.deleted applies (leads.growth tree)
        (visible q inside) gone
      have opened : OpenDeletion st.dumpedEntries table.entries d := by
        rw [dumped]
        exact ⟨⟨info, AList.mem_lookup_iff.mp found, deleted⟩,
          open_below_added emits leads tree applies backed rootOnly found deleted member under⟩
      obtain ⟨p, inside, rfl | ⟨-, t, rfl⟩⟩ := closes.reached wet d opened
      · exact left p inside below
      · exact left p inside ((below_slash p t).trans below)
    · intro inside
      refine ⟨.inl inside, fun p member below => ?_⟩
      obtain ⟨⟨info, listed, deleted⟩, -⟩ := closes.listed p member
      exact applies.deleted (AList.mem_lookup_iff.mpr listed) deleted
        (grown.up inside below (visible p (.inr (supplied p member))))
  have second : Replays (printedPath baton) repo revision (paths.map (deleteRecord baton))
      (loaded repo table edit.added after) {q ∈ loaded repo table edit.added after | ∀ p ∈ paths, ¬ Below p q} :=
    replays_deletions (fun p member => .inr (supplied p member)) apart
  rw [result] at second
  exact first.append second

end Edited

end Rsvndump
