import Rsvndump.Delta.Properties
import Rsvndump.Delta.Stream

/-! The properties of the root.

`de_open_root` starts from a node without properties, and nothing that was
stored for it is loaded again.
-/

set_option autoImplicit false

namespace Rsvndump

open Library

/-! ## Dumped revisions -/

/-- A revision and the records its edit leaves on the stream. -/
structure Revision where
  baton : DeBaton
  edit : Edit
  records : List NodeRecord

/-- The revision is dumped in format 2. The other paths of the edit are below the root. -/
structure Dumped (sys : Platform) (revision : Revision) : Prop where
  ran : ∃ st st' : DeltaState sys, runEdit revision.baton revision.edit st = .ok st' ∧ st'.out = revision.records
  format : revision.baton.opts.dumpFormat = 2
  wet : revision.baton.opts.initialDryRun = false
  below : [slash] ∉ revision.edit.children.paths
  logged : ¬ revision.baton.logRevision.deletes [slash]

/-- The root's properties in the repository after some revisions. -/
def rootProps (revisions : List Revision) : PropMap :=
  revisions.foldl (fun props revision => revision.edit.rootProps.foldl applyChange props) ∅

/-- A loader looks for the records of the root. -/
def loadRoot (props : PropMap) (revision : Revision) : PropMap :=
  revision.records.foldl
    (fun props record => if record.path = printedPath revision.baton [slash] then loadProps props record else props) props

/-- The root's properties in the loader after some revisions. -/
def loadedRootProps (revisions : List Revision) : PropMap := revisions.foldl loadRoot ∅

/-! ## One revision -/

variable {sys : Platform} {baton : DeBaton}

theorem Writes.path {node : DeNode} {st mid : DeltaState sys} {record : NodeRecord}
    (writes : Writes baton node st record mid) : record.path = printedPath baton node.path := by
  cases writes <;> rfl

/-- The records of other paths do not matter. -/
theorem loadRoot_others {records : List NodeRecord} (others : ∀ record ∈ records, WrittenFor sys baton (· ≠ [slash]) record)
    (props : PropMap) :
    records.foldl (fun props record => if record.path = printedPath baton [slash] then loadProps props record else props)
      props = props := by
  induction records generalizing props with
  | nil => rfl
  | cons record records ih =>
    rw [List.forall_mem_cons] at others
    obtain ⟨⟨node, st, mid, below, writes⟩, others⟩ := others
    have other : record.path ≠ printedPath baton [slash] := by
      rw [writes.path]
      exact fun same => below (List.append_cancel_left same)
    rw [List.foldl_cons, if_neg other, ih others]

/-- The root is dumped if the editor has changed its properties. -/
theorem dumpRoot_cases {edit : Edit} (wet : baton.opts.initialDryRun = false) {root : DeNode} {st st' : DeltaState sys}
    (ran : deltaDumpNode baton [] (rootNode edit) st = .ok (root, st')) :
    ((edit.rootProps.any fun change => isRegularProp change.name) = false ∧ st'.out = st.out) ∨
      ((edit.rootProps.any fun change => isRegularProp change.name) = true ∧ ∃ last record content,
        OnlyDecision (rootNode edit) last ∧ st'.out = st.out ++ [record] ∧
        record.path = printedPath baton [slash] ∧ record.body = some (nodeBody baton last content) ∧
        record.copyfrom = none) := by
  obtain ⟨changed, needed⟩ := changed_changeProps edit.rootProps deOpenRoot
  have same := onlyProps_changeProps edit.rootProps deOpenRoot
  have action : (rootNode edit).action = .modify := by rw [show rootNode edit = _ from same]; rfl
  have path : (rootNode edit).path = [slash] := by rw [show rootNode edit = _ from same]; rfl
  have kind : (rootNode edit).kind = .none := by rw [show rootNode edit = _ from same]; rfl
  have copyfrom : (rootNode edit).copyfrom = none := by rw [show rootNode edit = _ from same]; rfl
  have skipped : isSkipped baton (rootNode edit) = !(edit.rootProps.any fun change => isRegularProp change.name) := by
    have dump : (rootNode edit).dumpNeeded = edit.rootProps.any fun change => isRegularProp change.name :=
      needed.trans (Bool.false_or _)
    simp [isSkipped, action, kind, wet, dump]
  obtain ⟨quiet, -, rfl⟩ | ⟨dumped, last, mid, deleted, decided, frame, deletes, kept, ran⟩ := deltaDumpNode_cases ran
  · rw [skipped, Bool.not_eq_true'] at quiet
    exact .inl ⟨quiet, rfl⟩
  rw [skipped, Bool.not_eq_false'] at dumped
  have alone : deleted = [] := by
    rcases deletes with ⟨none, -⟩ | ⟨replaced, -⟩
    · exact none
    · rw [action] at replaced
      cases replaced
  obtain ⟨record, written, writes, done⟩ := dumpRecord_cases ran
  have uncopied : copyInfo baton last = none := by
    have : last.copyfrom = none := by rw [decided]; exact copyfrom
    simp [copyInfo, this]
  have body : ∃ content, record.body = some (nodeBody baton last content) ∧ record.copyfrom = none := by
    cases writes with
    | deleted gone => exact absurd (kept gone) (by simp [action])
    | unchanged _ unchanged => exact absurd unchanged.1 (by simp [uncopied])
    | text => exact ⟨_, rfl, by simp [presentRecord, uncopied]⟩
    | props => exact ⟨_, rfl, by simp [presentRecord, uncopied]⟩
  obtain ⟨content, body, single⟩ := body
  refine .inr ⟨dumped, last, record, content, decided, ?_, ?_, body, single⟩
  · rw [show st' = _ from congrArg Prod.snd done, finish_out, emit_out, writes.out, frame, alone, List.append_nil]
  · rw [writes.path, decided]
    exact congrArg _ path

/-- What a loader holds after a revision: the changes of this revision alone, if there are any. -/
theorem lookup_loadRoot {revision : Revision} (dumped : Dumped sys revision) (props : PropMap) (key : CString) :
    (loadRoot props revision).lookup key =
      if (revision.edit.rootProps.any fun change => isRegularProp change.name) = true then
        if DeletedIn revision.edit.rootProps key then none
        else ((revision.edit.rootProps.foldl applyChange ∅).lookup key).map printedValue
      else props.lookup key := by
  obtain ⟨⟨st, st', ran, out⟩, format, wet, below, logged⟩ := dumped
  obtain ⟨root, before, after, start, dumps, others, appended, written⟩ := @runEdit_records sys revision.baton
    (· ≠ [slash]) _ _ _ (fun path member same => below (same ▸ member))
    (fun path deleted same => logged (same ▸ deleted)) ran
  unfold loadRoot
  rw [← out, appended]
  obtain ⟨quiet, same⟩ | ⟨changed, last, record, content, decided, same, path, body, -⟩ := dumpRoot_cases wet dumps
  · rw [if_neg (by simp [quiet]), same, start, List.nil_append, loadRoot_others written]
  · have block : DumpsProps revision.baton last := by
      refine .inl ?_
      rw [decided]
      exact (changed_changeProps _ deOpenRoot).1.trans changed
    rw [if_pos changed, same, start, List.nil_append, List.singleton_append, List.foldl_cons, if_pos path,
      loadRoot_others written, lookup_loadProps _ last content body, if_pos block, if_neg (by simp [format]),
      Option.or_none, shownProps]
    have deleted : key ∈ last.delProperties ↔ DeletedIn revision.edit.rootProps key := by
      rw [decided]
      exact (mem_delProperties_changeProps _ deOpenRoot key).trans (or_iff_right (AList.notMem_empty _))
    rw [if_congr deleted rfl rfl]
    split
    · rfl
    · next kept =>
      rw [decided]
      exact congrArg _ (lookup_properties_changeProps kept deOpenRoot)

/-- The block of the root names every property the root has afterwards, with values that can be
printed, and none of them was deleted on the way. -/
def RootComplete (before : PropMap) (changes : List PropChange) : Prop :=
  (changes.any fun change => isRegularProp change.name) = true →
    (∀ key ∈ before, ChangedIn changes key) ∧
      ∀ key value, (changes.foldl applyChange ∅).lookup key = some value → ¬ DeletedIn changes key ∧ 0 ∉ value

theorem applyChanges_irregular {changes : List PropChange}
    (quiet : ¬ (changes.any fun change => isRegularProp change.name) = true) (props : PropMap) (key : CString) :
    (changes.foldl applyChange props).lookup key = props.lookup key := by
  rw [lookup_applyChanges, if_neg]
  rintro ⟨change, member, regular, -⟩
  exact quiet (List.any_eq_true.mpr ⟨change, member, regular⟩)

theorem loadRoot_iff {revision : Revision} (dumped : Dumped sys revision) {loaded before : PropMap}
    (same : ∀ key, loaded.lookup key = before.lookup key) :
    (∀ key, (loadRoot loaded revision).lookup key = (revision.edit.rootProps.foldl applyChange before).lookup key) ↔
      RootComplete before revision.edit.rootProps := by
  simp only [lookup_loadRoot dumped]
  generalize revision.edit.rootProps = changes
  unfold RootComplete
  by_cases changed : (changes.any fun change => isRegularProp change.name) = true
  · simp only [if_pos changed]
    constructor
    · intro equal _
      refine ⟨fun key member => ?_, fun key value found => ?_⟩
      · by_contra unchanged
        have := equal key
        rw [if_neg fun deleted => unchanged deleted.changed, lookup_applyChanges, if_neg unchanged, AList.lookup_empty,
          lookup_applyChanges, if_neg unchanged] at this
        exact AList.lookup_eq_none.mp this.symm member
      · have here : ChangedIn changes key := by
          by_contra unchanged
          rw [lookup_applyChanges, if_neg unchanged, AList.lookup_empty] at found
          cases found
        have := equal key
        rw [lookup_applyChanges changes before, if_pos here, found] at this
        split at this
        · cases this
        · next kept => exact ⟨kept, printedValue_eq_iff.mp (Option.some.inj this)⟩
    · intro complete key
      obtain ⟨covered, plain⟩ := complete changed
      rw [lookup_applyChanges changes before]
      by_cases here : ChangedIn changes key
      · rw [if_pos here]
        cases found : (changes.foldl applyChange ∅).lookup key with
        | none => simp
        | some value =>
          obtain ⟨kept, zero⟩ := plain key value found
          rw [if_neg kept, Option.map_some, printedValue_eq_iff.mpr zero]
      · have absent : before.lookup key = none := AList.lookup_eq_none.mpr fun member => here (covered key member)
        rw [if_neg here, absent, lookup_applyChanges, if_neg here, AList.lookup_empty]
        simp
  · simp only [if_neg changed, applyChanges_irregular changed, same, implies_true, true_iff]
    exact fun wrong => absurd wrong changed

/-! ## Runs -/

/-- A loader holds the root's properties after every revision exactly if every block is complete. -/
theorem root_props_iff {revisions : List Revision} (dumped : ∀ revision ∈ revisions, Dumped sys revision) :
    (∀ earlier later, revisions = earlier ++ later →
        ∀ key, (loadedRootProps earlier).lookup key = (rootProps earlier).lookup key) ↔
      ∀ earlier revision later, revisions = earlier ++ revision :: later →
        RootComplete (rootProps earlier) revision.edit.rootProps := by
  induction revisions using List.reverseRecOn with
  | nil =>
    refine ⟨fun _ earlier revision later split => ?_, fun _ earlier later split => ?_⟩
    · simp at split
    · obtain ⟨rfl, rfl⟩ := List.append_eq_nil_iff.mp split.symm
      exact fun _ => rfl
  | append_singleton revisions last ih =>
    have before := ih fun revision member => dumped revision (List.mem_append_left _ member)
    have step (same : ∀ key, (loadedRootProps revisions).lookup key = (rootProps revisions).lookup key) :
        (∀ key, (loadedRootProps (revisions ++ [last])).lookup key = (rootProps (revisions ++ [last])).lookup key) ↔
          RootComplete (rootProps revisions) last.edit.rootProps := by
      unfold loadedRootProps rootProps at same ⊢
      rw [List.foldl_concat, List.foldl_concat]
      exact loadRoot_iff (dumped last (by simp)) same
    constructor
    · intro equal
      have complete := before.mp fun earlier later split =>
        equal earlier (later ++ [last]) (by rw [split, List.append_assoc])
      have same := equal revisions [last] rfl
      intro earlier revision later split
      rcases List.eq_nil_or_concat later with rfl | ⟨rest, final, rfl⟩
      · obtain ⟨rfl, ⟨⟩⟩ := List.append_inj' split rfl
        exact (step same).mp (equal _ [] (List.append_nil _).symm)
      · rw [List.concat_eq_append, ← List.cons_append, ← List.append_assoc] at split
        exact complete earlier revision rest (List.append_inj_left' split rfl)
    · intro complete
      have equal := before.mpr fun earlier revision later split =>
        complete earlier revision (later ++ [last]) (by rw [split, List.append_assoc, List.cons_append])
      have same := equal revisions [] (List.append_nil _).symm
      intro earlier later split
      rcases List.eq_nil_or_concat later with rfl | ⟨rest, final, rfl⟩
      · rw [List.append_nil] at split
        rw [← split]
        exact (step same).mpr (complete revisions last [] rfl)
      · rw [List.concat_eq_append, ← List.append_assoc] at split
        exact equal earlier rest (List.append_inj_left' split rfl)

/-! Revisions that set one property of the root. -/

def rootEdit (name : String) : Edit := ⟨[⟨cstr name, some [49]⟩], .done⟩

def rootRevision (name : String) : Revision where
  baton := copyBaton
  edit := rootEdit name
  records :=
    match runEdit copyBaton (rootEdit name) (emptyDelta : DeltaState .plain) with
    | .ok st => st.out
    | .error _ => []

theorem rootRevision_dumped {name : String} (ran : ∃ st', runEdit copyBaton (rootEdit name)
    (emptyDelta : DeltaState .plain) = .ok st') : Dumped .plain (rootRevision name) where
  ran := by
    obtain ⟨st', ran⟩ := ran
    exact ⟨emptyDelta, st', ran, by simp [rootRevision, ran]⟩
  format := rfl
  wet := rfl
  below := by simp [rootRevision, rootEdit, Drive.paths]
  logged := by
    rintro ⟨table, info, found, listed, -⟩
    cases found
    cases listed

theorem rootEdit_complete {before : PropMap} (only : ∀ key ∈ before, key = cstr "k") :
    RootComplete before (rootEdit "k").rootProps := by
  intro _
  refine ⟨fun key member => ⟨_, List.mem_singleton_self _, by decide, (only key member).symm⟩, fun key value found => ?_⟩
  have member : ⟨key, value⟩ ∈ (oneProp "k").entries := AList.mem_lookup_iff.mp found
  rw [oneProp, AList.singleton_entries, List.mem_singleton] at member
  cases member
  exact ⟨by decide, by decide⟩

theorem root_props_reset :
    (∀ revision ∈ [rootRevision "k", rootRevision "k"], Dumped .plain revision) ∧
      ∀ earlier later, [rootRevision "k", rootRevision "k"] = earlier ++ later →
        ∀ key, (loadedRootProps earlier).lookup key = (rootProps earlier).lookup key := by
  have dumped : ∀ revision ∈ [rootRevision "k", rootRevision "k"], Dumped .plain revision := by
    simp only [List.mem_cons, List.not_mem_nil, or_false, or_self, forall_eq]
    exact rootRevision_dumped ⟨_, rfl⟩
  refine ⟨dumped, (root_props_iff dumped).mpr fun earlier revision later split => ?_⟩
  rcases earlier with _ | ⟨first, rest⟩
  · rw [List.nil_append, List.cons.injEq] at split
    rw [← split.1]
    exact rootEdit_complete fun key member => absurd member (AList.notMem_empty key)
  · rw [List.cons_append, List.cons.injEq] at split
    rcases rest with _ | ⟨second, tail⟩
    · rw [List.nil_append, List.cons.injEq] at split
      rw [← split.1, ← split.2.1]
      refine rootEdit_complete fun key member => ?_
      have : key ∈ (oneProp "k").entries.keys := member
      simpa [oneProp] using this
    · simp at split

/-- The second block does not repeat the property of the first. -/
theorem root_props_dropped :
    (∀ revision ∈ [rootRevision "k", rootRevision "m"], Dumped .plain revision) ∧
      (rootProps [rootRevision "k", rootRevision "m"]).lookup (cstr "k") = some [49] ∧
      (loadedRootProps [rootRevision "k", rootRevision "m"]).lookup (cstr "k") = none := by
  refine ⟨?_, by decide, by decide⟩
  simp only [List.mem_cons, List.not_mem_nil, or_false, forall_eq_or_imp, forall_eq]
  exact ⟨rootRevision_dumped ⟨_, rfl⟩, rootRevision_dumped ⟨_, rfl⟩⟩

end Rsvndump
