import Rsvndump.Delta.Records
import Rsvndump.Property.Refinement

/-! What a loader makes of the properties in a dump.

A property block without Prop-delta replaces all properties of the node, one
with Prop-delta sets and deletes some of them, and a record without a block
leaves them alone.
-/

set_option autoImplicit false

namespace Rsvndump

open Library

/-! ## Loading -/

/-- The properties of a node that had `old` after a record has been loaded. -/
def loadProps (old : PropMap) (record : NodeRecord) : PropMap :=
  match record.body with
  | none => old
  | some body =>
      if body.propContentLength = none then old
      else
        let set := body.props.foldl (fun m e => m.insert e.1 (CString.bytes e.2)) (if body.propDelta then old else ∅)
        body.delProps.foldl (fun m key => m.erase key) set

/-- A value as it is printed: a C string ends at the first zero. -/
def printedValue (value : Bytes) : Bytes := CString.bytes (CString.ofBytes value)

theorem printedValue_eq_iff {value : Bytes} : printedValue value = value ↔ 0 ∉ value := by
  unfold printedValue
  induction value with
  | nil => simp [CString.ofBytes, CString.bytes]
  | cons b rest ih =>
    by_cases zero : b = 0
    · simp [CString.ofBytes, CString.bytes, zero]
    · have kept : CString.bytes (CString.ofBytes (b :: rest)) = b :: CString.bytes (CString.ofBytes rest) := by
        simp [CString.ofBytes, CString.bytes, zero]
      rw [kept, List.cons.injEq, ih]
      simp [Ne.symm zero]

theorem dlookup_filter_key (entries : List ((_ : CString) × Bytes)) (keep : CString → Bool) (key : CString) :
    (entries.filter fun e => keep e.1).dlookup key = if keep key then entries.dlookup key else none := by
  induction entries with
  | nil => simp
  | cons e entries ih =>
    obtain ⟨name, value⟩ := e
    by_cases same : key = name
    · subst same
      cases kept : keep key with
      | true => rw [List.filter_cons_of_pos (by simpa using kept), List.dlookup_cons_eq, if_pos rfl, List.dlookup_cons_eq]
      | false =>
        rw [List.filter_cons_of_neg (by simp [kept]), ih, kept]
        rfl
    · rw [List.dlookup_cons_ne _ _ same]
      cases kept : keep name with
      | true => rw [List.filter_cons_of_pos (by simpa using kept), List.dlookup_cons_ne _ _ same, ih]
      | false => rw [List.filter_cons_of_neg (by simp [kept]), ih]

/-- Whether a record has a property block. -/
def DumpsProps (baton : DeBaton) (node : DeNode) : Prop :=
  node.propsChanged = true ∨ node.action = .add ∨ propLength baton node > 0

instance (baton : DeBaton) (node : DeNode) : Decidable (DumpsProps baton node) :=
  inferInstanceAs (Decidable (node.propsChanged = true ∨ node.action = .add ∨ propLength baton node > 0))

/-- The properties that a block sets. -/
def shownProps (node : DeNode) (key : CString) : Option Bytes :=
  if key ∈ node.delProperties then none else (node.properties.lookup key).map printedValue

theorem lookup_printedProps (node : DeNode) (old : PropMap) (key : CString) :
    ((printedProps node).foldl (fun m e => m.insert e.1 (CString.bytes e.2)) old).lookup key =
      (shownProps node key).or (old.lookup key) := by
  unfold printedProps shownProps
  rw [List.foldl_map]
  have distinct : (node.properties.entries.filter fun e => decide (e.1 ∉ node.delProperties)).NodupKeys :=
    node.properties.nodupKeys.sublist List.filter_sublist
  refine (lookup_foldl_insert _ distinct printedValue old key).trans ?_
  rw [dlookup_filter_key _ (fun name => decide (name ∉ node.delProperties))]
  by_cases deleted : key ∈ node.delProperties
  · simp [deleted]
  · simp [deleted, AList.lookup]

/-- What the block of a node leaves. -/
theorem lookup_loadProps (baton : DeBaton) (node : DeNode) (content : Option Bytes) {record : NodeRecord}
    (body : record.body = some (nodeBody baton node content)) (old : PropMap) (key : CString) :
    (loadProps old record).lookup key =
      if DumpsProps baton node then
        (shownProps node key).or
          (if baton.opts.dumpFormat = 3 then if key ∈ node.delProperties then none else old.lookup key else none)
      else old.lookup key := by
  unfold loadProps
  rw [body]
  by_cases dumps : DumpsProps baton node
  · have block : node.propsChanged = true ∨ node.action = .add ∨ propLength baton node > 0 := dumps
    simp only [nodeBody, block, if_true, reduceCtorEq, if_false, true_and, decide_eq_true_eq, if_pos dumps]
    rw [lookup_foldl_erase, lookup_printedProps]
    unfold printedDelProps
    by_cases delta : baton.opts.dumpFormat = 3
    · simp only [delta, if_true]
      by_cases deleted : key ∈ node.delProperties
      · have listed : key ∈ node.delProperties.keys := AList.mem_keys.mp deleted
        simp [listed, deleted, shownProps]
      · have listed : key ∉ node.delProperties.keys := fun member => deleted (AList.mem_keys.mpr member)
        simp [listed, deleted]
    · simp [delta]
  · have block : ¬ (node.propsChanged = true ∨ node.action = .add ∨ propLength baton node > 0) := dumps
    simp only [nodeBody, block, if_false, if_true, if_neg dumps]

/-! ## Changes -/

/-- A change as the repository makes it. -/
def applyChange (props : PropMap) (change : PropChange) : PropMap :=
  if isRegularProp change.name then
    match change.value with
    | some value => props.insert change.name value
    | none => props.erase change.name
  else props

/-- The regular changes of a property. -/
def ChangedIn (changes : List PropChange) (key : CString) : Prop :=
  ∃ change ∈ changes, isRegularProp change.name = true ∧ change.name = key

/-- The regular deletions of a property. -/
def DeletedIn (changes : List PropChange) (key : CString) : Prop :=
  ∃ change ∈ changes, isRegularProp change.name = true ∧ change.name = key ∧ change.value = none

instance (changes : List PropChange) (key : CString) : Decidable (ChangedIn changes key) :=
  inferInstanceAs (Decidable (∃ change ∈ changes, _ ∧ _))

instance (changes : List PropChange) (key : CString) : Decidable (DeletedIn changes key) :=
  inferInstanceAs (Decidable (∃ change ∈ changes, _ ∧ _ ∧ _))

theorem DeletedIn.changed {changes : List PropChange} {key : CString} (deleted : DeletedIn changes key) :
    ChangedIn changes key := by
  obtain ⟨change, member, regular, name, -⟩ := deleted
  exact ⟨change, member, regular, name⟩

theorem lookup_applyChange_ne {props : PropMap} {change : PropChange} {key : CString}
    (other : ¬ (isRegularProp change.name = true ∧ change.name = key)) :
    (applyChange props change).lookup key = props.lookup key := by
  unfold applyChange
  split
  · next regular =>
    have differs : key ≠ change.name := fun same => other ⟨regular, same.symm⟩
    split
    · exact AList.lookup_insert_ne differs
    · exact AList.lookup_erase_ne differs
  · rfl

theorem lookup_applyChange_self {props : PropMap} {change : PropChange} (regular : isRegularProp change.name = true) :
    (applyChange props change).lookup change.name = change.value := by
  unfold applyChange
  rw [if_pos regular]
  cases change.value with
  | some value => exact AList.lookup_insert props
  | none => exact AList.lookup_erase change.name props

/-- Changes decide on what they change and leave the rest. -/
theorem lookup_applyChanges (changes : List PropChange) (props : PropMap) (key : CString) :
    (changes.foldl applyChange props).lookup key =
      if ChangedIn changes key then (changes.foldl applyChange ∅).lookup key else props.lookup key := by
  induction changes using List.reverseRecOn with
  | nil => simp [ChangedIn]
  | append_singleton changes change ih =>
    rw [List.foldl_concat, List.foldl_concat]
    by_cases here : isRegularProp change.name = true ∧ change.name = key
    · obtain ⟨regular, rfl⟩ := here
      rw [if_pos ⟨change, by simp, regular, rfl⟩, lookup_applyChange_self regular, lookup_applyChange_self regular]
    · rw [lookup_applyChange_ne here, lookup_applyChange_ne here, ih]
      have same : ChangedIn (changes ++ [change]) key ↔ ChangedIn changes key := by
        simp only [ChangedIn, List.mem_append, List.mem_singleton, or_and_right, exists_or, exists_eq_left]
        exact or_iff_left here
      simp only [same]

/-- The hash of deleted properties collects every deletion. -/
theorem mem_delProperties_changeProps (changes : List PropChange) (node : DeNode) (key : CString) :
    key ∈ (changes.foldl changeProp node).delProperties ↔ key ∈ node.delProperties ∨ DeletedIn changes key := by
  induction changes generalizing node with
  | nil => simp [DeletedIn]
  | cons change changes ih =>
    rw [List.foldl_cons, ih]
    have split : DeletedIn (change :: changes) key ↔
        (isRegularProp change.name = true ∧ change.name = key ∧ change.value = none) ∨ DeletedIn changes key := by
      simp only [DeletedIn, List.mem_cons, or_and_right, exists_or, exists_eq_left]
    rw [split, ← or_assoc]
    refine or_congr ?_ Iff.rfl
    unfold changeProp
    by_cases regular : isRegularProp change.name = true
    · cases found : change.value with
      | some value => simp [regular]
      | none => simp [regular, AList.mem_insert, or_comm, eq_comm]
    · simp [regular]

/-- A property that is not deleted has the value the repository has. -/
theorem lookup_properties_changeProps {changes : List PropChange} {key : CString} (kept : ¬ DeletedIn changes key)
    (node : DeNode) : (changes.foldl changeProp node).properties.lookup key =
      (changes.foldl applyChange node.properties).lookup key := by
  induction changes using List.reverseRecOn with
  | nil => rfl
  | append_singleton changes change ih =>
    have before : ¬ DeletedIn changes key := by
      rintro ⟨other, member, rest⟩
      exact kept ⟨other, List.mem_append_left _ member, rest⟩
    rw [List.foldl_concat, List.foldl_concat]
    by_cases here : isRegularProp change.name = true ∧ change.name = key
    · obtain ⟨regular, rfl⟩ := here
      cases found : change.value with
      | some value => simp [changeProp, applyChange, regular, found]
      | none => exact absurd ⟨change, by simp, regular, rfl, found⟩ kept
    · rw [lookup_applyChange_ne here, ← ih before]
      unfold changeProp
      split
      · next regular =>
        have differs : key ≠ change.name := fun same => here ⟨regular, same.symm⟩
        split
        · exact AList.lookup_insert_ne differs
        · rfl
      · rfl

theorem changed_changeProps (changes : List PropChange) (node : DeNode) :
    (changes.foldl changeProp node).propsChanged =
        (node.propsChanged || changes.any fun change => isRegularProp change.name) ∧
      (changes.foldl changeProp node).dumpNeeded =
        (node.dumpNeeded || changes.any fun change => isRegularProp change.name) := by
  induction changes generalizing node with
  | nil => simp
  | cons change changes ih =>
    obtain ⟨changed, needed⟩ := ih (changeProp node change)
    rw [List.foldl_cons, changed, needed]
    unfold changeProp
    by_cases regular : isRegularProp change.name = true
    · cases found : change.value <;> simp [regular]
    · simp [regular]

/-- The node's hashes after the editor has set some properties. -/
theorem foldl_changeProp_sets {changes : List PropChange} (sets : ∀ change ∈ changes, change.value ≠ none)
    (node : DeNode) :
    (changes.foldl changeProp node).properties = changes.foldl applyChange node.properties ∧
      (changes.foldl changeProp node).delProperties = node.delProperties ∧
      (changes.foldl changeProp node).propsChanged =
        (node.propsChanged || changes.any fun change => isRegularProp change.name) := by
  induction changes generalizing node with
  | nil => simp
  | cons change changes ih =>
    obtain ⟨value, found⟩ := Option.ne_none_iff_exists'.mp (sets change List.mem_cons_self)
    obtain ⟨props, deleted, changed⟩ := ih (fun change member => sets change (List.mem_cons_of_mem _ member))
      (changeProp node change)
    rw [List.foldl_cons, List.foldl_cons, props, deleted, changed]
    unfold changeProp applyChange
    by_cases regular : isRegularProp change.name = true
    · simp [regular, found]
    · simp [regular]

/-- A node whose properties were not touched yet. -/
structure FreshProps (node : DeNode) : Prop where
  properties : node.properties = ∅
  delProperties : node.delProperties = ∅
  unchanged : node.propsChanged = false

/-- The properties of `node` are those of `base` after some changes. -/
structure SamePropsAs (node base : DeNode) : Prop where
  properties : node.properties = base.properties
  delProperties : node.delProperties = base.delProperties
  changed : node.propsChanged = base.propsChanged

variable {sys : Platform} {baton : DeBaton}

theorem addFromLog_fresh {node : DeNode} (fresh : FreshProps node) (change : Option ChangedPath) :
    FreshProps (addFromLog node change) := by
  cases change with
  | none => exact fresh
  | some change => exact ⟨fresh.properties, fresh.delProperties, fresh.unchanged⟩

theorem deAddDirectory_fresh {parent node : DeNode} {path : CString} {st st' : DeltaState sys}
    (ran : deAddDirectory baton parent path st = .ok (node, st')) : FreshProps node := by
  obtain ⟨entry, -, ran⟩ := bind_eq_ok.mp ran
  obtain ⟨mid, -, ran⟩ := bind_eq_ok.mp ran
  rw [pure_eq_ok, Except.ok.injEq, Prod.mk.injEq] at ran
  rw [← ran.1]
  exact addFromLog_fresh ⟨rfl, rfl, rfl⟩ entry

theorem deAddFile_fresh {parent node : DeNode} {path : CString} {st st' : DeltaState sys}
    (ran : deAddFile baton parent path st = .ok (node, st')) : FreshProps node := by
  obtain ⟨entry, -, ran⟩ := bind_eq_ok.mp ran
  obtain ⟨mid, -, ran⟩ := bind_eq_ok.mp ran
  rw [pure_eq_ok, Except.ok.injEq, Prod.mk.injEq] at ran
  have fresh : FreshProps (addFromLog { deltaCreateNode path parent .file .add with dumpNeeded := true } entry) :=
    addFromLog_fresh ⟨rfl, rfl, rfl⟩ entry
  rw [← ran.1]
  split
  · exact ⟨fresh.properties, fresh.delProperties, fresh.unchanged⟩
  · exact fresh

theorem applyText_props {node node' : DeNode} {st st' : DeltaState sys} {text : Option TextDelta}
    (ran : applyText node st text = .ok (node', st')) : SamePropsAs node' node := by
  cases text with
  | none =>
    cases ran
    exact ⟨rfl, rfl, rfl⟩
  | some delta =>
    obtain ⟨source, -, ran⟩ := bind_eq_ok.mp ran
    cases ran
    exact ⟨rfl, rfl, rfl⟩

/-- An added node after the editor has set its properties; a file may have got a text since. -/
def Reports (changes : List PropChange) (node : DeNode) : Prop :=
  (∀ change ∈ changes, change.value ≠ none) ∧ ∃ base, FreshProps base ∧ SamePropsAs node (changes.foldl changeProp base)

/-- What `de_add_directory` and the property callbacks make of a directory. -/
theorem reports_addDirectory {parent node : DeNode} {path : CString} {st st' : DeltaState sys}
    (ran : deAddDirectory baton parent path st = .ok (node, st')) {changes : List PropChange}
    (sets : ∀ change ∈ changes, change.value ≠ none) : Reports changes (changes.foldl deChangeDirProp node) :=
  ⟨sets, node, deAddDirectory_fresh ran, ⟨rfl, rfl, rfl⟩⟩

/-- The same of a file, whose text comes after its properties. -/
theorem reports_addFile {parent node node' : DeNode} {path : CString} {st st' st'' : DeltaState sys}
    (ran : deAddFile baton parent path st = .ok (node, st')) {changes : List PropChange} {text : Option TextDelta}
    (sets : ∀ change ∈ changes, change.value ≠ none)
    (applied : applyText (changes.foldl deChangeFileProp node) st' text = .ok (node', st'')) : Reports changes node' :=
  ⟨sets, node, deAddFile_fresh ran, applyText_props applied⟩

/-! ## Copies -/

/-- The copy source was last dumped with the text of the node; a directory has none. -/
def SameText (baton : DeBaton) (st : DeltaState sys) (node : DeNode) : Prop :=
  node.kind = .file → (node.copyfrom.bind fun source =>
    st.md5Hash.lookup (orNull (deltaGetLocalCopyfromPath baton.session.prefixPath source.1))) = some node.md5sum

instance (baton : DeBaton) (st : DeltaState sys) (node : DeNode) : Decidable (SameText baton st node) :=
  inferInstanceAs (Decidable (_ → _))

/-- The block of a copy leaves the right properties. Without one the source must have none; a
block holds no zero bytes, and with Prop-delta nothing of the source is removed. -/
def CopyPropsKept (baton : DeBaton) (st : DeltaState sys) (node : DeNode) (source reported : PropMap) : Prop :=
  if reported.entries = [] ∧ SameText baton st node then source.entries = []
  else (∀ key value, reported.lookup key = some value → 0 ∉ value) ∧
    (baton.opts.dumpFormat = 3 → ∀ key ∈ source, key ∈ reported)

theorem entries_eq_nil_iff {props : PropMap} : props.entries = [] ↔ ∀ key, props.lookup key = none := by
  constructor
  · intro empty key
    rw [show props = ∅ from AList.ext empty, AList.lookup_empty]
  · intro absent
    by_contra some
    obtain ⟨e, member⟩ := List.exists_mem_of_ne_nil _ some
    have := AList.lookup_isSome.mpr (show e.1 ∈ props from List.mem_keys_of_mem member)
    rw [absent] at this
    cases this

/-- Sets leave a property exactly if one of them is regular. -/
theorem reported_empty_iff {changes : List PropChange} (sets : ∀ change ∈ changes, change.value ≠ none) :
    (changes.foldl applyChange ∅).entries = [] ↔ (changes.any fun change => isRegularProp change.name) = false := by
  rw [entries_eq_nil_iff]
  induction changes using List.reverseRecOn with
  | nil => simp
  | append_singleton changes change ih =>
    obtain ⟨value, found⟩ := Option.ne_none_iff_exists'.mp (sets change (by simp))
    rw [List.foldl_concat, List.any_append, Bool.or_eq_false_iff]
    by_cases regular : isRegularProp change.name = true
    · constructor
      · intro absent
        have := absent change.name
        simp [applyChange, regular, found] at this
      · simp [regular]
    · have kept : applyChange (changes.foldl applyChange ∅) change = changes.foldl applyChange ∅ := by
        simp [applyChange, regular]
      rw [kept, ih fun change member => sets change (List.mem_append_left _ member)]
      simp [regular]

theorem dumpContent_eq_false_iff {node : DeNode} {st : DeltaState sys} (added : node.action = .add)
    (copied : (copyInfo baton node).isSome) : dumpContent baton st node = false ↔ SameText baton st node := by
  obtain ⟨source, found⟩ := Option.isSome_iff_exists.mp copied
  have info := found
  unfold copyInfo at info
  split at info
  · obtain ⟨origin, copyfrom, rfl⟩ := Option.map_eq_some_iff.mp info
    unfold dumpContent SameText
    rw [found, copyfrom]
    by_cases file : node.kind = .file
    · simp [added, file]
    · simp [file]
  · cases info

/-- A block without deletions leaves exactly the properties of the node unless a value is cut short
or the old properties are kept. -/
theorem block_props_iff {node : DeNode} {record : NodeRecord} {content : Option Bytes}
    (body : record.body = some (nodeBody baton node content)) (added : node.action = .add)
    (deleted : node.delProperties = ∅) (old : PropMap) :
    (∀ key, (loadProps old record).lookup key = node.properties.lookup key) ↔
      (∀ key value, node.properties.lookup key = some value → 0 ∉ value) ∧
        (baton.opts.dumpFormat = 3 → ∀ key ∈ old, key ∈ node.properties) := by
  have dumps : DumpsProps baton node := .inr (.inl added)
  simp only [lookup_loadProps baton _ content body, if_pos dumps, shownProps, deleted, AList.notMem_empty, if_false]
  constructor
  · intro kept
    refine ⟨fun key value found => ?_, fun delta key member => ?_⟩
    · have := kept key
      rw [found, Option.map_some, Option.some_or, Option.some.injEq] at this
      exact printedValue_eq_iff.mp this
    · by_contra missing
      have := kept key
      rw [AList.lookup_eq_none.mpr missing, Option.map_none, Option.none_or, if_pos delta] at this
      exact AList.lookup_eq_none.mp this member
  · rintro ⟨plain, covered⟩ key
    cases found : node.properties.lookup key with
    | some value => rw [Option.map_some, Option.some_or, printedValue_eq_iff.mpr (plain key value found)]
    | none =>
      rw [Option.map_none, Option.none_or]
      split
      · next delta =>
        exact AList.lookup_eq_none.mpr fun member => AList.lookup_eq_none.mp found (covered delta key member)
      · rfl

/-- What the record of a copy does to the properties of its source. -/
theorem copied_props_iff {node : DeNode} {st written : DeltaState sys} {record : NodeRecord}
    (writes : Writes baton node st record written) (added : record.action = .add) (copied : record.copyfrom ≠ none)
    (deleted : node.delProperties = ∅) (unchanged : node.propsChanged = false ↔ node.properties.entries = [])
    (source : PropMap) :
    (∀ key, (loadProps source record).lookup key = node.properties.lookup key) ↔
      CopyPropsKept baton st node source node.properties := by
  have quiet (added : node.action = .add) (copied : (copyInfo baton node).map
      (fun source => (printedPath baton source.1, source.2)) ≠ none) :
      Unchanged baton st node ↔ node.properties.entries = [] ∧ SameText baton st node := by
    have copies : (copyInfo baton node).isSome := by simpa [Option.isSome_iff_ne_none] using copied
    rw [← dumpContent_eq_false_iff added copies, ← unchanged]
    exact ⟨fun same => ⟨same.2.2, same.2.1⟩, fun both => ⟨copies, both.2, both.1⟩⟩
  unfold CopyPropsKept
  cases writes with
  | deleted => cases added
  | unchanged _ same =>
    have empty := (quiet added copied).mp same
    rw [if_pos empty, entries_eq_nil_iff]
    simp only [loadProps, presentRecord, entries_eq_nil_iff.mp empty.1]
  | text _ changed =>
    rw [if_neg fun empty => changed ((quiet added copied).mpr empty)]
    exact block_props_iff rfl added deleted source
  | props _ changed =>
    rw [if_neg fun empty => changed ((quiet added copied).mpr empty)]
    exact block_props_iff rfl added deleted source

/-- A loader that clones the source of a copy with the properties `source` ends with the properties
the editor has reported exactly if they are kept. -/
theorem copy_props_iff {baton : DeBaton} {changes : List PropChange} {node node' : DeNode} {above : List DeNode}
    {st st' : DeltaState sys} (reports : Reports changes node) (dumped : isSkipped baton node = false)
    (ran : deltaDumpNode baton above node st = .ok (node', st')) (source : PropMap) :
    ∃ deleted record, st'.out = st.out ++ deleted ++ [record] ∧ (∀ other ∈ deleted, other.action = .delete) ∧
      (record.action = .add → record.copyfrom ≠ none →
        ((∀ key, (loadProps source record).lookup key = (changes.foldl applyChange ∅).lookup key) ↔
          CopyPropsKept baton st node source (changes.foldl applyChange ∅))) := by
  obtain ⟨skipped, -⟩ | ⟨-, last, mid, deleted, decided, frame, deletes, -, ran⟩ := deltaDumpNode_cases ran
  · rw [dumped] at skipped
    cases skipped
  obtain ⟨record, written, writes, done⟩ := dumpRecord_cases ran
  have out : st'.out = st.out ++ deleted ++ [record] := by
    rw [show st' = _ from congrArg Prod.snd done, finish_out, emit_out, writes.out, frame]
  refine ⟨deleted, record, out, ?_, fun added copied => ?_⟩
  · rcases deletes with ⟨rfl, -⟩ | ⟨-, rfl⟩
    · simp
    · simp [deleteRecord]
  obtain ⟨sets, base, fresh, same⟩ := reports
  obtain ⟨properties, delProperties, propsChanged⟩ := foldl_changeProp_sets sets base
  rw [fresh.properties, ← same.properties] at properties
  rw [fresh.delProperties, ← same.delProperties] at delProperties
  rw [fresh.unchanged, Bool.false_or, ← same.changed] at propsChanged
  have empty := reported_empty_iff sets
  rw [← propsChanged] at empty
  have text : SameText baton st node ↔ SameText baton mid last := by
    unfold SameText
    rw [decided, frame]
  have lastProps : last.properties = changes.foldl applyChange ∅ := by rw [decided, properties]
  have lastDeleted : last.delProperties = ∅ := by rw [decided, delProperties]
  have lastChanged : last.propsChanged = node.propsChanged := by rw [decided]
  have kept := copied_props_iff writes added copied lastDeleted (by rw [lastChanged, lastProps, empty]) source
  unfold CopyPropsKept at kept ⊢
  simp only [text, ← lastProps]
  exact kept

/-! The directory `a` copied to `b` in a full dump. -/

def copyBaton : DeBaton := ⟨⟨[]⟩, .create, [], ⟨2, none, none, none, some ∅⟩, 2⟩

def copiedDir : DeNode :=
  { deltaCreateNodeNoParent (cstr "b") .dir .add with copyfrom := some (cstr "a", 1), dumpNeeded := true }

/-- One property with one byte. -/
def oneProp (name : String) : PropMap := AList.singleton (cstr name) [49]

theorem copy_props_replaced :
    ∃ node' st', deltaDumpNode copyBaton [] (changeProp copiedDir ⟨cstr "k", some [49]⟩) (emptyDelta : DeltaState .plain) =
      .ok (node', st') ∧ ∃ record, st'.out = [record] ∧ record.copyfrom = some (cstr "a", 1) ∧
        ∀ key, (loadProps (oneProp "s") record).lookup key = (oneProp "k").lookup key := by
  refine ⟨_, _, rfl, _, rfl, rfl, ?_⟩
  have reports : Reports [⟨cstr "k", some [49]⟩] (changeProp copiedDir ⟨cstr "k", some [49]⟩) :=
    ⟨by simp, copiedDir, ⟨rfl, rfl, rfl⟩, ⟨rfl, rfl, rfl⟩⟩
  obtain ⟨deleted, record, out, -, kept⟩ := copy_props_iff reports (by decide)
    (show deltaDumpNode copyBaton [] _ (emptyDelta : DeltaState .plain) = .ok (_, _) from rfl) (oneProp "s")
  have size : 1 = deleted.length + 1 := (congrArg List.length out).trans List.length_append
  obtain rfl : deleted = [] := List.length_eq_zero_iff.mp (by omega)
  cases out
  refine (kept rfl (by decide)).mpr ?_
  unfold CopyPropsKept
  rw [if_neg (by decide)]
  refine ⟨fun key value found => ?_, fun delta => absurd delta (by decide)⟩
  have member : ⟨key, value⟩ ∈ (oneProp "k").entries := AList.mem_lookup_iff.mp found
  rw [oneProp, AList.singleton_entries, List.mem_singleton] at member
  cases member
  decide

/-- A directory loses its last property when it is copied; the dump says nothing of it. -/
theorem copy_props_lost :
    Reports [] copiedDir ∧
      ∃ node' st', deltaDumpNode copyBaton [] copiedDir (emptyDelta : DeltaState .plain) = .ok (node', st') ∧
        ∃ record, st'.out = [record] ∧ record.action = .add ∧ record.copyfrom = some (cstr "a", 1) ∧
          (loadProps (oneProp "s") record).lookup (cstr "s") ≠ (List.foldl applyChange ∅ []).lookup (cstr "s") :=
  ⟨⟨by simp, copiedDir, ⟨rfl, rfl, rfl⟩, ⟨rfl, rfl, rfl⟩⟩, _, _, rfl, _, rfl, rfl, rfl, by decide⟩

end Rsvndump
