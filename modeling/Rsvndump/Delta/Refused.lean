import Rsvndump.Delta.Checksums
import Rsvndump.Delta.Replaying

/-! Edits that cannot be loaded.

A loader has one way to go on at most. What is loaded as it should be tells that each
record has found what it needs, and so that the log fits to what the copies bring.
-/

set_option autoImplicit false

namespace Rsvndump

open Library

variable {baton : DeBaton} {repo : RepoPaths} {table : AprHash ChangedPath} {revision : Int} {visited : List CString}
  {paths : Set CString} {dir x : CString}

/-! ## Steps -/

section Steps

variable {shown : CString → CString} (named : ∀ path path', shown path = shown path' → path = path') {record : NodeRecord}
  {before after after' : Set CString}

include named

theorem Loads.unique (first : Loads shown repo revision record before after) (second : Loads shown repo revision record before after') :
    after = after' := by
  cases first with
  | delete action place _ =>
    cases second with
    | delete _ place' _ => rw [named _ _ (place.symm.trans place')]
    | add wrong => simp [action] at wrong
    | copy wrong => simp [action] at wrong
    | change wrong => simp [action] at wrong
  | add action place plain _ _ =>
    cases second with
    | delete wrong => simp [action] at wrong
    | add _ place' _ _ _ => rw [named _ _ (place.symm.trans place')]
    | copy _ _ copies => simp [plain] at copies
    | change wrong => simp [action] at wrong
  | copy action place copies _ _ _ _ _ =>
    cases second with
    | delete wrong => simp [action] at wrong
    | add _ _ plain => simp [plain] at copies
    | copy _ place' copies' _ _ _ _ _ =>
      rw [copies, Option.some.injEq, Prod.mk.injEq] at copies'
      rw [named _ _ (place.symm.trans place'), named _ _ copies'.1, copies'.2]
    | change wrong => simp [action] at wrong
  | change action _ _ =>
    cases second with
    | delete wrong => simp [action] at wrong
    | add wrong => simp [action] at wrong
    | copy wrong => simp [action] at wrong
    | change _ _ _ => rfl

/-- What is deleted is there. -/
theorem Loads.present {path : CString} (loads : Loads shown repo revision record before after) (action : record.action = .delete)
    (place : record.path = shown path) : path ∈ before ∧ after = {q ∈ before | ¬ Below path q} := by
  cases loads with
  | delete _ place' there =>
    obtain rfl := named _ _ (place.symm.trans place')
    exact ⟨there, rfl⟩
  | add wrong => simp [action] at wrong
  | copy wrong => simp [action] at wrong
  | change wrong => simp [action] at wrong

/-- What is added is not. -/
theorem Loads.absent {path : CString} (loads : Loads shown repo revision record before after) (action : record.action = .add)
    (place : record.path = shown path) : path ∉ before := by
  cases loads with
  | delete wrong => simp [action] at wrong
  | add _ place' _ out _ => exact named _ _ (place.symm.trans place') ▸ out
  | copy _ place' _ _ _ _ out _ => exact named _ _ (place.symm.trans place') ▸ out
  | change wrong => simp [action] at wrong

theorem Loads.changed {path : CString} (loads : Loads shown repo revision record before after) (action : record.action = .modify)
    (place : record.path = shown path) : path = [slash] ∨ path ∈ before := by
  cases loads with
  | delete wrong => simp [action] at wrong
  | add wrong => simp [action] at wrong
  | copy wrong => simp [action] at wrong
  | change _ place' there => exact named _ _ (place.symm.trans place') ▸ there

omit named in
/-- A record brings a path only when it adds one at or above it. -/
theorem Loads.keeps_absent {q : CString} (loads : Loads shown repo revision record before after) (out : q ∉ before)
    (apart : ∀ path, record.action = .add → record.path = shown path → ¬ Below path q) : q ∉ after := by
  cases loads with
  | delete => exact fun member => out member.1
  | @add path action place =>
    rintro (rfl | member)
    · exact apart q action place (below_refl q)
    · exact out member
  | copy action place =>
    rintro (member | brought)
    · exact out member
    · exact apart _ action place (below_of_mem_copied brought)
  | change => exact out

theorem Replays.unique {records : List NodeRecord} (first : Replays shown repo revision records before after)
    (second : Replays shown repo revision records before after') : after = after' := by
  have deterministic : ∀ record before after after', Loads shown repo revision record before after →
      Loads shown repo revision record before after' → after = after' :=
    fun _ _ _ _ step step' => step.unique named step'
  exact Runs.unique deterministic first second

end Steps

theorem printedPath_named (baton : DeBaton) (path path' : CString) (same : printedPath baton path = printedPath baton path') :
    path = path' :=
  printedPath_inj.mp same

/-- A path comes with one copy at most. -/
theorem SuppliedFrom.unique {source source' q : CString} (supplied : SuppliedFrom repo table visited source q)
    (supplied' : SuppliedFrom repo table visited source' q) : source = source' := by
  obtain ⟨front, x, back, info, original, rfl, found, adds, copies, other, brings, last⟩ := supplied
  obtain ⟨front', x', back', info', original', split, found', adds', copies', other', brings', last'⟩ := supplied'
  have renews : Renews table x q := ⟨below_of_mem_copied brings, other, info, found, adds⟩
  have renews' : Renews table x' q := ⟨below_of_mem_copied brings', other', info', found', adds'⟩
  have same : x = x' := by
    rcases List.append_eq_append_iff.mp split with ⟨mid, -, rest⟩ | ⟨mid, -, rest⟩
    · cases mid with
      | nil => exact (List.cons.inj rest).1
      | cons m mid => exact absurd renews' (last x' (by rw [(List.cons.inj rest).2]; simp))
    · cases mid with
      | nil => exact (List.cons.inj rest).1.symm
      | cons m mid => exact absurd renews (last' x (by rw [(List.cons.inj rest).2]; simp))
  subst same
  cases Option.some.inj (found.symm.trans found')
  exact congrArg Prod.fst (Option.some.inj (copies.symm.trans copies'))

/-! ## Runs -/

/-- The records of an added path are loaded as they should be, and it fits to the copies, or the path is missing. -/
theorem AddEmits.fits {own : List NodeRecord} {mark : List DeNode} {after : Set CString}
    (emits : AddEmits baton repo table visited x own mark) (trees : ∀ r, PathTree (repo r)) (tree : PathTree paths)
    (entry : EntryOf dir x) (plain : PlainPath x) (there : dir = [] ∨ dir ∈ paths) (absent : x ∉ paths)
    (named : ∀ v ∈ visited, v ≠ []) (below : ∀ v ∈ visited, ¬ Below x v) (lawful : Lawful repo table revision visited x)
    (replays : Replays (printedPath baton) repo revision own (loaded repo table visited paths) after) :
    Fitting repo table revision visited x ∧ after = loaded repo table (visited ++ [x]) (insert x paths) ∨ x ∉ after := by
  have fits : Fitting repo table revision visited x →
      Fitting repo table revision visited x ∧ after = loaded repo table (visited ++ [x]) (insert x paths) := by
    intro fitting
    exact ⟨fitting, Replays.unique (printedPath_named baton) replays
      (emits.replays trees tree entry there absent named below fitting)⟩
  have unlisted : ∀ {P : Prop} {info : ChangedPath}, table.lookup x = none → table.lookup x = some info → P := by
    intro P info none found
    rw [none] at found
    cases found
  cases emits with
  | @added info _ _ found action _ _ =>
    refine .inl (fits ⟨lawful, fun info' found' changes => ?_, fun none => unlisted none found⟩)
    cases Option.some.inj (found.symm.trans found')
    rcases changes with wrong | wrong <;> simp [action] at wrong
  | @replaced info _ _ found action _ _ =>
    cases replays with
    | cons deletes _ =>
      have supplied := ((deletes.present (printedPath_named baton) rfl rfl).1).resolve_left absent
      exact .inl (fits ⟨lawful, fun _ _ _ => supplied, fun none => unlisted none found⟩)
  | @modified info _ _ found action change _ =>
    -- a change needs the path, which the editor adds
    cases replays with
    | cons changes _ =>
      have present := changes.changed (printedPath_named baton) change.1 change.2
      have other : x ≠ [slash] := fun same => plain.relative (by rw [same]; rfl)
      have supplied := (present.resolve_left other).resolve_left absent
      exact .inl (fits ⟨lawful, fun _ _ _ => supplied, fun none => unlisted none found⟩)
  | @unchanged info found action =>
    -- a directory that is skipped is missing when no copy brings it
    cases replays
    by_cases supplied : Supplied repo table visited x
    · exact .inl (fits ⟨lawful, fun _ _ _ => supplied, fun none => unlisted none found⟩)
    · exact .inr (not_or.mpr ⟨absent, supplied⟩)
  | cloned none copies =>
    obtain ⟨source, named', supplied⟩ := copies
    refine .inl (fits ⟨lawful, fun info found _ => unlisted none found, fun _ fromRoot => ?_⟩)
    exact named' (supplied.unique fromRoot)
  | plain none own adds =>
    cases replays with
    | cons add _ =>
      have out := add.absent (printedPath_named baton) adds.1 adds.2.1
      refine .inl (fits ⟨lawful, fun info found _ => unlisted none found, fun _ fromRoot => ?_⟩)
      exact out (.inr ⟨[], fromRoot⟩)

section Emitted

variable {edit : TreeEdit} {fresh : Bool} {before after now : Set CString} {records : List NodeRecord} {marks : List DeNode}

theorem TreeEdit.Emits.adds (emits : edit.Emits baton repo table visited records marks) {record : NodeRecord}
    (member : record ∈ records) (action : record.action = .add) : ∃ p ∈ edit.added, record.path = printedPath baton p := by
  induction edit generalizing visited records marks with
  | done =>
    obtain ⟨rfl, -⟩ := emits
    cases member
  | delete path rest ih =>
    obtain ⟨node, later, nodes, rfl, -, -, -, -, emits⟩ := emits
    rcases List.mem_cons.mp member with rfl | member
    · cases action
    · exact ih emits member
  | add path children rest ihChildren ihRest =>
    obtain ⟨own, mark, inner, innerMarks, later, laterMarks, rfl, -, adds, below, others⟩ := emits
    simp only [List.mem_append] at member
    rcases member with member | member | member
    · refine ⟨path, List.mem_cons_self, ?_⟩
      cases adds with
      | added _ _ add => exact List.mem_singleton.mp member ▸ add.2.1
      | replaced _ _ add =>
        rcases List.mem_cons.mp member with rfl | member
        · cases action
        · exact List.mem_singleton.mp member ▸ add.2.1
      | modified _ _ change => exact List.mem_singleton.mp member ▸ change.2
      | unchanged => cases member
      | cloned => cases member
      | plain _ _ add => exact List.mem_singleton.mp member ▸ add.2.1
    · obtain ⟨p, inside, place⟩ := ihChildren below member
      exact ⟨p, List.mem_cons_of_mem path (List.mem_append_left _ inside), place⟩
    · obtain ⟨p, inside, place⟩ := ihRest others member
      exact ⟨p, List.mem_cons_of_mem path (List.mem_append_right _ inside), place⟩
  | enter path children rest ihChildren ihRest =>
    obtain ⟨own, mark, inner, innerMarks, later, laterMarks, rfl, -, changes, below, others⟩ := emits
    simp only [List.mem_append] at member
    rcases member with member | member | member
    · cases changes with
      | changed change =>
        rw [List.mem_singleton.mp member, change.1] at action
        cases action
      | unchanged => cases member
    · obtain ⟨p, inside, place⟩ := ihChildren below member
      exact ⟨p, List.mem_append_left _ inside, place⟩
    · obtain ⟨p, inside, place⟩ := ihRest others member
      exact ⟨p, List.mem_append_right _ inside, place⟩

/-- A path that is missing stays missing when nothing is added at or above it. -/
theorem TreeEdit.Emits.keeps_absent (emits : edit.Emits baton repo table visited records marks) {q : CString}
    (replays : Replays (printedPath baton) repo revision records before now) (out : q ∉ before)
    (apart : ∀ p ∈ edit.added, ¬ Below p q) : q ∉ now := by
  refine @Runs.keeps _ _ _ (fun s : Set CString => q ∉ s) _ (fun record member s t loads missing => ?_) _ _ replays out
  refine loads.keeps_absent missing fun path action place => ?_
  obtain ⟨p, inside, place'⟩ := emits.adds member action
  exact printedPath_named baton p path (place'.symm.trans place) ▸ apart p inside

/-- What can be loaded of an edit fits to the copies, or one of the added paths is missing. -/
theorem TreeEdit.Emits.fits (emits : edit.Emits baton repo table visited records marks) (leads : edit.Leads fresh dir before after)
    (trees : ∀ r, PathTree (repo r)) (tree : PathTree before) (there : dir = [] ∨ dir ∈ before)
    (apart : Unvisited edit fresh visited)
    (lawful : HoldsAlong (Lawful repo table revision) visited edit.added)
    (replays : Replays (printedPath baton) repo revision records (loaded repo table visited before) now) :
    HoldsAlong (Fitting repo table revision) visited edit.added ∧ now = loaded repo table (visited ++ edit.added) after ∨
      ∃ x ∈ edit.added, x ∉ now := by
  induction edit generalizing fresh dir before after now visited records marks with
  | done =>
    obtain ⟨rfl, -⟩ := emits
    cases replays
    refine .inl ⟨trivial, ?_⟩
    rw [TreeEdit.added, List.append_nil, show before = after from leads]
  | delete path rest ih =>
    obtain ⟨node, later, nodes, rfl, -, -, -, -, emits⟩ := emits
    obtain ⟨opened, entry, present, leads⟩ := leads
    have above := fun v member => apart.above opened v member path List.mem_cons_self
    have below := fun v member => apart.below v member path List.mem_cons_self
    cases replays with
    | cons deletes replays =>
      rw [(deletes.present (printedPath_named baton) rfl rfl).2, loaded_removed above below] at replays
      refine ih emits leads (tree.removed path) (there.imp_right fun inside => ⟨inside, fun under => ?_⟩) (apart.tail rfl) lawful
        replays
      exact entry.ne (under.antisymm entry.below)
  | add path children rest ihChildren ihRest =>
    obtain ⟨own, mark, inner, innerMarks, later, laterMarks, rfl, -, adds, below, others⟩ := emits
    obtain ⟨entry, absent, once, mid, childrenLead, restLead⟩ := leads
    obtain ⟨law, along⟩ := lawful
    obtain ⟨lawBelow, lawLater⟩ := holdsAlong_append.mp along
    have grown := tree.entry entry there
    obtain ⟨first, ownRuns, replays⟩ := replays.split
    obtain ⟨second, innerRuns, laterRuns⟩ := replays.split
    -- a path that is missing after its own records is not added by those that follow
    rcases adds.fits trees tree entry (entry.plainPath (there.imp_right (tree.plain dir))) there absent apart.named
      (fun v member => apart.below v member path List.mem_cons_self) law ownRuns with ⟨fitting, rfl⟩ | missing
    · rcases ihChildren below childrenLead grown (.inr (Set.mem_insert path before))
        (apart.children_added List.mem_cons_self entry childrenLead) lawBelow innerRuns with ⟨fitsBelow, rfl⟩ | ⟨x, inside, missing⟩
      · have left : Unvisited rest fresh (visited ++ [path] ++ children.added) := by
          rw [List.append_assoc]
          exact unvisited_rest entry restLead once (apart.tail rfl) childrenLead.added_under
        rcases ihRest others restLead (childrenLead.tree grown (.inr (Set.mem_insert path before)))
          (there.imp_right fun inside => (childrenLead.above_kept entry.below).mpr (.inr inside)) left lawLater laterRuns
          with ⟨fitsLater, rfl⟩ | ⟨x, inside, missing⟩
        · refine .inl ⟨⟨fitting, holdsAlong_append.mpr ⟨fitsBelow, fitsLater⟩⟩, ?_⟩
          rw [TreeEdit.added]
          simp
        · exact .inr ⟨x, List.mem_cons_of_mem path (List.mem_append_right _ inside), missing⟩
      · refine .inr ⟨x, List.mem_cons_of_mem path (List.mem_append_left _ inside), ?_⟩
        exact others.keeps_absent laterRuns missing fun _ member =>
          restLead.rest_reached_apart entry once (childrenLead.children_reached (.inl inside)) (.inl member)
    · refine .inr ⟨path, List.mem_cons_self, ?_⟩
      have left := below.keeps_absent innerRuns missing fun p inside => childrenLead.added_strict inside
      exact others.keeps_absent laterRuns left fun _ member =>
        restLead.rest_reached_apart entry once (below_refl path) (.inl member)
  | enter path children rest ihChildren ihRest =>
    obtain ⟨own, mark, inner, innerMarks, later, laterMarks, rfl, -, changes, below, others⟩ := emits
    obtain ⟨opened, entry, present, once, mid, childrenLead, restLead⟩ := leads
    obtain ⟨lawBelow, lawLater⟩ := holdsAlong_append.mp lawful
    obtain ⟨first, ownRuns, replays⟩ := replays.split
    obtain ⟨second, innerRuns, laterRuns⟩ := replays.split
    obtain rfl := Replays.unique (printedPath_named baton) (changes.replays present) ownRuns
    have unvisited := Unvisited.children_opened (opened ▸ apart) List.mem_cons_self childrenLead
    rcases ihChildren below childrenLead tree (.inr present) unvisited lawBelow innerRuns with ⟨fitsBelow, rfl⟩ | ⟨x, inside, missing⟩
    · rcases ihRest others restLead (childrenLead.tree tree (.inr present))
        (there.imp_right fun inside => (childrenLead.above_kept entry.below).mpr inside)
        (unvisited_rest entry restLead once (apart.tail rfl) fun v member => childrenLead.children_reached (.inl member)) lawLater
        laterRuns with ⟨fitsLater, rfl⟩ | ⟨x, inside, missing⟩
      · refine .inl ⟨holdsAlong_append.mpr ⟨fitsBelow, fitsLater⟩, ?_⟩
        rw [TreeEdit.added, List.append_assoc]
      · exact .inr ⟨x, List.mem_append_right _ inside, missing⟩
    · refine .inr ⟨x, List.mem_append_left _ inside, ?_⟩
      exact others.keeps_absent laterRuns missing fun _ member =>
        restLead.rest_reached_apart entry once (childrenLead.children_reached (.inl inside)) (.inl member)

end Emitted

/-! ## Deletions -/

theorem PlainPath.entryOf {path : CString} (plain : PlainPath path) : ∃ dir, EntryOf dir path := by
  obtain ⟨names, some, plain, rfl⟩ := plain
  obtain ⟨init, name, rfl⟩ := (List.eq_nil_or_concat names).resolve_left some
  rw [List.concat_eq_append] at plain ⊢
  have own : PlainName name := plain name (by simp)
  refine ⟨joined init, name, own, ?_⟩
  by_cases top : init = []
  · subst top
    rfl
  · have long : joined init ≠ [] := fun empty =>
      top ((joined_eq_nil fun n member => plain n (List.mem_append_left _ member)).mp empty)
    rw [joined_append top (List.cons_ne_nil _ _), subpath_of_ne long]
    rfl

section Logged

variable {before after : Set CString} {p d : CString} {info info' : ChangedPath}

/-- After a path has been deleted, nothing is made below it, since each change needs its directory. -/
theorem deleted_stays {front back : List CString} (nodup : (front ++ p :: back).Nodup) (first : ParentsFirst (front ++ p :: back))
    (steps : ∀ front' path rest info, front ++ p :: back = front' ++ path :: rest → table.lookup path = some info →
      Applicable repo revision path info (Overwrite.run (front'.map (tableChange repo table)) before))
    (found : table.lookup p = some info) (deleted : info.action = .delete) {between rest : List CString}
    (split : back = between ++ rest) :
    ∀ q, Below p q → q ∉ Overwrite.run ((front ++ p :: between).map (tableChange repo table)) before := by
  induction between using List.reverseRecOn generalizing rest with
  | nil =>
    intro q below member
    rw [List.map_append, List.map_cons, List.map_nil, Overwrite.run_append, Overwrite.run_cons, Overwrite.run_nil] at member
    rcases member with added | ⟨-, kept⟩
    · obtain ⟨adds, -⟩ := (mem_tableChange_added found).mp added
      rcases adds with wrong | wrong <;> simp [deleted] at wrong
    · refine kept ?_
      rw [tableChange, found]
      exact ⟨.inl deleted, below⟩
  | append_singleton between y ih =>
    -- the change that would bring a path needs a directory below the deleted path
    intro q below member
    have split' : back = between ++ (y :: rest) := by rw [split]; simp
    have missing := ih split'
    rw [show front ++ p :: (between ++ [y]) = (front ++ p :: between) ++ [y] by simp, List.map_append, Overwrite.run_append,
      List.map_singleton, Overwrite.run_cons, Overwrite.run_nil] at member
    rcases member with added | ⟨old, -⟩
    · cases found' : table.lookup y with
      | none =>
        rw [tableChange, found'] at added
        cases added
      | some info' =>
        obtain ⟨adds, brought⟩ := (mem_tableChange_added found').mp added
        have later : y ∈ back := by simp [split']
        have apart := first.later_apart nodup rfl later
        have under : Below p y := (below.total (below_of_mem_addedPaths brought)).resolve_right apart
        have other : p ≠ y := fun same => apart (same ▸ below_refl y)
        have applicable := steps (front ++ p :: between) y rest info' (by rw [split']; simp) found'
        have named : y ≠ [] := by
          rintro rfl
          exact apart (below_nil p)
        obtain ⟨dir, entry⟩ := (applicable.plain.resolve_left named).entryOf
        have above := entry.above under other
        have parent := applicable.parent adds
        rw [ParentIn, entry.dirname] at parent
        rcases parent with rfl | inside
        · -- the root is not deleted
          have root := below_nil_right.mp above
          have applicable' := steps front p back info rfl found
          have wrong := applicable'.root root
          rw [deleted] at wrong
          cases wrong
        · exact missing dir above inside
    · exact missing q below old

/-- The log does not list the deletion of a path below another deletion. -/
theorem Applies.deleted_apart (applies : Applies repo revision table before after) (found : table.lookup p = some info)
    (deleted : info.action = .delete) (found' : table.lookup d = some info') (deleted' : info'.action = .delete)
    (below : Below p d) : d = p := by
  by_contra other
  obtain ⟨order, perm, first, steps, -⟩ := applies
  have nodup : order.Nodup := perm.nodup_iff.mpr table.keys_nodup
  have listed : ∀ {y info}, table.lookup y = some info → y ∈ order := fun found =>
    perm.mem_iff.mpr (AList.mem_keys.mp (AList.lookup_isSome.mp (by rw [found]; rfl)))
  obtain ⟨front, back, rfl⟩ := List.append_of_mem (listed found)
  have late : d ∈ back := by
    rcases List.mem_append.mp (listed found') with early | own
    · obtain ⟨init, mid, rfl⟩ := List.append_of_mem early
      have whole : (init ++ d :: mid) ++ p :: back = init ++ d :: (mid ++ p :: back) := by simp
      exact absurd below (first.later_apart nodup whole (by simp))
    · exact (List.mem_cons.mp own).resolve_left other
  obtain ⟨between, rest, split⟩ := List.append_of_mem late
  have missing := deleted_stays nodup first steps found deleted split d below
  have applicable := steps (front ++ p :: between) d rest info' (by rw [split]; simp) found'
  rcases applicable.present (by simp [deleted']) with root | present
  · have wrong := applicable.root root
    rw [deleted'] at wrong
    cases wrong
  · exact missing present

end Logged

/-! ## Whole edits -/

/-- What is deleted one after the other has been there at the beginning. -/
theorem deletions_present {deletions : List CString} {before after : Set CString}
    (replays : Replays (printedPath baton) repo revision (deletions.map (deleteRecord baton)) before after) :
    ∀ p ∈ deletions, p ∈ before := by
  induction deletions generalizing before with
  | nil => simp
  | cons path deletions ih =>
    cases replays with
    | cons deletes replays =>
      obtain ⟨there, rfl⟩ := deletes.present (printedPath_named baton) rfl rfl
      exact List.forall_mem_cons.mpr ⟨there, fun p member => (ih replays p member).1⟩

/-- Deletions bring nothing. -/
theorem deletions_absent {deletions : List CString} {before after : Set CString}
    (replays : Replays (printedPath baton) repo revision (deletions.map (deleteRecord baton)) before after) {q : CString}
    (out : q ∉ before) : q ∉ after := by
  refine @Runs.keeps _ _ _ (fun s : Set CString => q ∉ s) _ (fun record member s t loads missing => ?_) _ _ replays out
  obtain ⟨path, -, rfl⟩ := List.mem_map.mp member
  exact loads.keeps_absent missing fun _ wrong => nomatch wrong

section Whole

variable {edit : TreeEdit} {before after : Set CString} {records : List NodeRecord} {marks : List DeNode} {base : AprHash DeNode}

/-- The records of an edit and of the deletions that are left can be loaded, and end in the paths of the revision, just when
the log fits to what the copies bring. -/
theorem replays_iff (emits : edit.Emits baton repo table [] records marks) (leads : edit.Leads false [] before after)
    (trees : ∀ r, PathTree (repo r)) (tree : PathTree before) (applies : Applies repo revision table before after)
    (rootOnly : ∀ q node, base.lookup q = some node → q = [slash] ∧ node.action ≠ .delete ∧ node.cpInfo.isFailed = false)
    (wet : baton.opts.initialDryRun = false) {sys : Platform} {st st' : DeltaState sys}
    (dumped : st.dumpedEntries = entered base marks) {deletions : List CString} (closes : Closes baton st table.entries deletions st') :
    Replays (printedPath baton) repo revision (records ++ deletions.map (deleteRecord baton)) before after ↔
      Backed repo table edit := by
  refine ⟨fun replays => ?_, fun backed => backed.replays emits leads trees tree applies rootOnly wet dumped closes⟩
  obtain ⟨mid, first, second⟩ := replays.split
  rw [← @loaded_nil repo table before] at first
  rcases emits.fits leads trees tree (.inl rfl) ⟨by simp, by simp, by simp⟩
    (applies.lawful leads tree) first with ⟨fits, rfl⟩ | ⟨x, added, missing⟩
  · rw [List.nil_append] at second
    have supplied : ∀ x ∈ edit.added, ∀ info, table.lookup x = some info → info.action = .replace ∨ info.action = .modify →
        Supplied repo table edit.added x := by
      intro x member info found changes
      obtain ⟨front, back, split⟩ := List.append_of_mem member
      obtain ⟨source, given⟩ := (holdsAlong_iff.mp fits front x back split).present info found changes
      exact ⟨source, (supplied_so_far leads split).mpr given⟩
    refine ⟨supplied, fun x member none given => ?_, fun d info found deleted => ?_⟩
    · obtain ⟨front, back, split⟩ := List.append_of_mem member
      exact (holdsAlong_iff.mp fits front x back split).silent none ((supplied_so_far leads split).mp given)
    · -- a deletion that is left open is dumped at the end, and then finds nothing to delete
      by_contra neither
      obtain ⟨kept, unsupplied⟩ := not_or.mp neither
      have opened : OpenDeletion st.dumpedEntries table.entries d := by
        rw [dumped]
        refine ⟨⟨info, AList.mem_lookup_iff.mp found, deleted⟩, ?_⟩
        refine open_undeleted emits leads applies (fun x member info found modified => supplied x member info found (.inr modified))
          rootOnly found deleted fun p gone below => ?_
        by_contra lost
        exact kept ⟨p, gone, lost, below⟩
      have absent := applies.deleted found deleted
      obtain ⟨p, inside, reaches⟩ := closes.reached wet d opened
      have same : d = p := by
        rcases reaches with same | ⟨-, t, rfl⟩
        · exact same.symm
        · obtain ⟨⟨info', listed, deleted'⟩, -⟩ := closes.listed p inside
          exact applies.deleted_apart (AList.mem_lookup_iff.mpr listed) deleted' found deleted (below_slash p t)
      rcases deletions_present second p inside with wrong | given
      · exact absent (same ▸ wrong)
      · exact unsupplied (same ▸ given)
  · exact absurd (leads.added_kept added) (deletions_absent second missing)

end Whole

end Rsvndump
