import Rsvndump.Delta.Properties

/-! The properties of a node over the revisions that touch it.

What is opened is loaded from the storage and stored again when it is closed. A
deletion is only noted for the dump: the property itself is stored with the
others and comes back the next time.
-/

set_option autoImplicit false

namespace Rsvndump

open Library

variable {sys : Platform}

/-! ## Visits -/

/-- The properties a node has in the repository after the changes of some revisions. -/
def repoProps (visits : List (List PropChange)) : PropMap := visits.flatten.foldl applyChange ∅

theorem repoProps_concat (visits : List (List PropChange)) (changes : List PropChange) :
    repoProps (visits ++ [changes]) = changes.foldl applyChange (repoProps visits) := by
  simp [repoProps]

/-- The path a call on the storage is for. -/
def PropCall.path : PropCall → Option CString
  | .store path _ | .load path _ | .delete path => some path
  | .cleanup => none

/-- What happens to the storage without this path: cleanups and the calls for others, whose sets
are among those known. -/
def Elsewhere (known : Set Bytes) (path : CString) (st st' : DeltaState sys) : Prop :=
  ∃ calls : List PropCall, (∀ call ∈ calls, call.path ≠ some path) ∧
    (∀ other props, PropCall.store other props ∈ calls → NamedProps props ∧ propHashSerialize props ∈ known) ∧
    calls.foldlM (propStep sys) st.propStore = some st'.propStore

/-- The node with which a visit begins: it is added once and then opened. -/
inductive Enters (path : CString) (st : DeltaState sys) : List (List PropChange) → DeNode → DeltaState sys → Prop
  | directory {baton : DeBaton} {parent node : DeNode} {st' : DeltaState sys} :
      deAddDirectory baton parent path st = .ok (node, st') → Enters path st [] node st'
  | file {baton : DeBaton} {parent node : DeNode} {st' : DeltaState sys} :
      deAddFile baton parent path st = .ok (node, st') → Enters path st [] node st'
  | opened {visits : List (List PropChange)} {kind : NodeKind} {parent node : DeNode} {st' : DeltaState sys} :
      visits ≠ [] → openNode kind parent path st = .ok (node, st') → Enters path st visits node st'

/-- No empty name is set. -/
def NamedChanges (changes : List PropChange) : Prop := ∀ change ∈ changes, change.value ≠ none → change.name ≠ []

/-- The visits of a path; `condition` is asked of the properties before a visit and of its changes. -/
inductive PropVisits (condition : PropMap → List PropChange → Prop) (known : Set Bytes) (path : CString) :
    List (List PropChange) → DeltaState sys → Prop
  | start {calls : List PropCall} {st : DeltaState sys} :
      (∀ other props, PropCall.store other props ∈ calls → NamedProps props ∧ propHashSerialize props ∈ known) →
      propRun sys calls = some st.propStore → PropVisits condition known path [] st
  | elsewhere {visits : List (List PropChange)} {st st' : DeltaState sys} :
      PropVisits condition known path visits st → Elsewhere known path st st' → PropVisits condition known path visits st'
  | visit {visits : List (List PropChange)} {changes : List PropChange} {st mid st' : DeltaState sys}
      {node closed : DeNode} : PropVisits condition known path visits st → Enters path st visits node mid →
      Elsewhere known path mid st' → NamedChanges changes → condition (repoProps visits) changes →
      SamePropsAs closed (changes.foldl changeProp node) → closed.path = path →
      propHashSerialize closed.properties ∈ known →
      PropVisits condition known path (visits ++ [changes]) (closeNode closed st')

/-! ## Changes -/

/-- A set that comes last is in the hash with its value. -/
theorem lookup_properties_of_some {changes : List PropChange} {node : DeNode} {props : PropMap} {key : CString}
    {value : Bytes} (same : node.properties.lookup key = props.lookup key)
    (found : (changes.foldl applyChange props).lookup key = some value) :
    (changes.foldl changeProp node).properties.lookup key = some value := by
  induction changes using List.reverseRecOn with
  | nil => exact same.trans found
  | append_singleton changes change ih =>
    rw [List.foldl_concat] at found ⊢
    by_cases here : isRegularProp change.name = true ∧ change.name = key
    · obtain ⟨regular, rfl⟩ := here
      rw [lookup_applyChange_self regular] at found
      simp [changeProp, regular, found]
    · rw [lookup_applyChange_ne here] at found
      have before := ih found
      unfold changeProp
      split
      · next regular =>
        have differs : key ≠ change.name := fun same => here ⟨regular, same.symm⟩
        split
        · rw [← before]
          exact AList.lookup_insert_ne differs
        · exact before
      · exact before

/-- A property that is never set keeps the value it was loaded with. -/
theorem lookup_properties_of_unset {changes : List PropChange} {node : DeNode} {key : CString}
    (unset : ∀ change ∈ changes, change.name = key → change.value = none) :
    (changes.foldl changeProp node).properties.lookup key = node.properties.lookup key := by
  induction changes using List.reverseRecOn with
  | nil => rfl
  | append_singleton changes change ih =>
    rw [List.forall_mem_append, List.forall_mem_singleton] at unset
    rw [List.foldl_concat, ← ih unset.1]
    unfold changeProp
    split
    · split
      · next value found =>
        refine AList.lookup_insert_ne fun same => ?_
        rw [unset.2 same.symm] at found
        cases found
      · rfl
    · rfl

/-- No deletion of a property that was there: every property whose last change is a deletion was
neither there before nor set in between. -/
def KeepsProps (before : PropMap) (changes : List PropChange) : Prop :=
  ∀ key, ChangedIn changes key → (changes.foldl applyChange before).lookup key = none →
    before.lookup key = none ∧ ∀ change ∈ changes, change.name = key → change.value = none

/-- What is stored when such a node is closed. -/
theorem lookup_properties_kept {changes : List PropChange} {node : DeNode} {before : PropMap}
    (loaded : ∀ key, node.properties.lookup key = before.lookup key) (kept : KeepsProps before changes) (key : CString) :
    (changes.foldl changeProp node).properties.lookup key = (changes.foldl applyChange before).lookup key := by
  cases found : (changes.foldl applyChange before).lookup key with
  | some value => exact lookup_properties_of_some (loaded key) found
  | none =>
    by_cases changed : ChangedIn changes key
    · obtain ⟨absent, unset⟩ := kept key changed found
      rw [lookup_properties_of_unset unset, loaded key, absent]
    · rw [lookup_applyChanges, if_neg changed] at found
      have undeleted : ¬ DeletedIn changes key := fun deleted => changed deleted.changed
      rw [lookup_properties_changeProps undeleted, lookup_applyChanges, if_neg changed, loaded key, found]

theorem namedProps_iff_mem {props : PropMap} : NamedProps props ↔ ([] : CString) ∉ props := by
  rw [AList.mem_keys, AList.keys]
  constructor
  · intro named member
    obtain ⟨value, listed⟩ := List.mem_keys.mp member
    exact named _ listed rfl
  · rintro absent ⟨key, value⟩ listed rfl
    exact absent (List.mem_keys_of_mem listed)

theorem named_changeProps {changes : List PropChange} {node : DeNode} (named : NamedProps node.properties)
    (fresh : NamedChanges changes) : NamedProps (changes.foldl changeProp node).properties := by
  induction changes generalizing node with
  | nil => exact named
  | cons change changes ih =>
    refine ih ?_ fun other member => fresh other (List.mem_cons_of_mem _ member)
    unfold changeProp
    split
    · split
      · next value found =>
        rw [namedProps_iff_mem] at named ⊢
        have own : change.name ≠ [] := fresh change List.mem_cons_self (by rw [found]; simp)
        simpa [AList.mem_insert, Ne.symm own] using named
      · exact named
    · exact named

/-! ## Storage -/

variable {known : Set Bytes} {path : CString} {visits : List (List PropChange)} {st st' : DeltaState sys}

/-- The storage holds what the visits have left for the path. -/
def HoldsProps (known : Set Bytes) (path : CString) (visits : List (List PropChange)) (st : DeltaState sys) : Prop :=
  ∃ held, Represents sys known st.propStore held ∧
    (visits ≠ [] → ∀ key, (held path).lookup key = (repoProps visits).lookup key)

theorem leaves_elsewhere {calls : List PropCall} (others : ∀ call ∈ calls, call.path ≠ some path)
    (held : CString → PropMap) : calls.foldl PropCall.leaves held path = held path := by
  induction calls generalizing held with
  | nil => rfl
  | cons call calls ih =>
    rw [List.forall_mem_cons] at others
    rw [List.foldl_cons, ih others.2]
    cases call with
    | store other props => exact Function.update_of_ne (fun same => others.1 (congrArg some same.symm)) _ _
    | load other into => exact Function.update_of_ne (fun same => others.1 (congrArg some same.symm)) _ _
    | delete other => exact Function.update_of_ne (fun same => others.1 (congrArg some same.symm)) _ _
    | cleanup => rfl

theorem Elsewhere.represents {held : CString → PropMap} (injective : Set.InjOn sys.md5 known)
    (short : ∀ data ∈ known, data.length < 2147483648) (elsewhere : Elsewhere known path st st')
    (rep : Represents sys known st.propStore held) :
    ∃ held', Represents sys known st'.propStore held' ∧ held' path = held path := by
  obtain ⟨calls, others, named, ran⟩ := elsewhere
  obtain ⟨after, done, kept⟩ := rep.run injective short named
  cases Option.some.inj (done.symm.trans ran)
  exact ⟨_, kept, leaves_elsewhere others held⟩

/-- A node is entered with the properties it had in the revision before. -/
theorem Enters.loads {node : DeNode} (injective : Set.InjOn sys.md5 known) (short : ∀ data ∈ known, data.length < 2147483648)
    (holds : HoldsProps known path visits st) (enters : Enters path st visits node st') :
    (∀ key, node.properties.lookup key = (repoProps visits).lookup key) ∧ node.delProperties = ∅ ∧
      NamedProps node.properties ∧ ∃ held, Represents sys known st'.propStore held := by
  obtain ⟨held, rep, stored⟩ := holds
  have added : ∀ {node : DeNode}, FreshProps node → (∀ key, node.properties.lookup key = (repoProps []).lookup key) ∧
      node.delProperties = ∅ ∧ NamedProps node.properties := by
    intro node fresh
    rw [fresh.properties]
    exact ⟨fun _ => rfl, fresh.delProperties, namedProps_iff_mem.mpr (AList.notMem_empty _)⟩
  cases enters with
  | directory ran =>
    obtain ⟨loaded, deleted, named⟩ := added (deAddDirectory_fresh ran)
    obtain ⟨entry, -, ran⟩ := bind_eq_ok.mp ran
    obtain ⟨mid, scheduled, ran⟩ := bind_eq_ok.mp ran
    cases ran
    refine ⟨loaded, deleted, named, held, ?_⟩
    rw [((schedulePath_frame path st).of_ok scheduled).propStore]
    exact rep
  | file ran =>
    obtain ⟨loaded, deleted, named⟩ := added (deAddFile_fresh ran)
    obtain ⟨entry, -, ran⟩ := bind_eq_ok.mp ran
    obtain ⟨mid, scheduled, ran⟩ := bind_eq_ok.mp ran
    cases ran
    refine ⟨loaded, deleted, named, held, ?_⟩
    rw [((schedulePath_frame path st).of_ok scheduled).propStore]
    exact rep
  | opened entered ran =>
    obtain ⟨⟨props, store⟩, loads, ran⟩ := bind_eq_ok.mp ran
    cases ran
    rw [orError_eq_ok] at loads
    obtain ⟨loaded, after, done, lookups, kept⟩ := rep.propertyLoad injective short path ∅
    cases Option.some.inj (done.symm.trans loads)
    have same : ∀ key, props.lookup key = (held path).lookup key := by
      intro key
      rw [lookups key]
      exact Option.or_none
    refine ⟨fun key => (same key).trans (stored entered key), rfl, ?_, _, kept⟩
    have named : NamedProps (held path) := fun e listed => (rep.fits path e listed).1
    rw [namedProps_iff_mem, ← AList.lookup_isSome] at named ⊢
    rwa [same]

/-- Every visit leaves the properties of the repository in the storage. -/
theorem PropVisits.holds (injective : Set.InjOn sys.md5 known) (short : ∀ data ∈ known, data.length < 2147483648)
    (visited : PropVisits KeepsProps known path visits st) : HoldsProps known path visits st := by
  induction visited with
  | start named ran =>
    obtain ⟨after, done, kept⟩ := Represents.create.run injective short named
    cases Option.some.inj (done.symm.trans ran)
    exact ⟨_, kept, fun wrong => absurd rfl wrong⟩
  | elsewhere _ elsewhere ih =>
    obtain ⟨held, rep, stored⟩ := ih
    obtain ⟨held', rep', same⟩ := elsewhere.represents injective short rep
    refine ⟨held', rep', fun entered => ?_⟩
    rw [same]
    exact stored entered
  | visit _ enters elsewhere fresh kept same place listed ih =>
    obtain ⟨loaded, -, named, held, rep⟩ := enters.loads injective short ih
    obtain ⟨held', rep', -⟩ := elsewhere.represents injective short rep
    have named' := named_changeProps named fresh
    rw [← same.properties] at named'
    subst place
    refine ⟨_, rep'.propertyStore (fits_of_short named' (short _ listed)) listed, fun _ key => ?_⟩
    rw [Function.update_self, repoProps_concat, same.properties]
    exact lookup_properties_kept loaded kept key

/-! ## Blocks -/

/-- What a block needs: a property that is deleted is not set afterwards, and no value has a zero in it. -/
def ShowsProps (before : PropMap) (changes : List PropChange) : Prop :=
  (∀ key, DeletedIn changes key → (changes.foldl applyChange before).lookup key = none) ∧
    ∀ key value, (changes.foldl applyChange before).lookup key = some value → 0 ∉ value

theorem shownProps_eq {changes : List PropChange} {node last : DeNode} {before : PropMap}
    (loaded : ∀ key, node.properties.lookup key = before.lookup key) (none : node.delProperties = ∅)
    (shows : ShowsProps before changes) (same : SamePropsAs last (changes.foldl changeProp node)) (key : CString) :
    shownProps last key = (changes.foldl applyChange before).lookup key := by
  have deleted : key ∈ last.delProperties ↔ DeletedIn changes key := by
    rw [same.delProperties, mem_delProperties_changeProps, none]
    simp
  unfold shownProps
  by_cases gone : DeletedIn changes key
  · rw [if_pos (deleted.mpr gone), shows.1 key gone]
  · rw [if_neg fun listed => gone (deleted.mp listed), same.properties, lookup_properties_changeProps gone]
    have agree : (changes.foldl applyChange node.properties).lookup key = (changes.foldl applyChange before).lookup key := by
      rw [lookup_applyChanges, lookup_applyChanges changes before, loaded key]
    rw [agree]
    cases found : (changes.foldl applyChange before).lookup key with
    | none => rfl
    | some value => exact congrArg some (printedValue_eq_iff.mpr (shows.2 key value found))

/-- A block that is written is the one of `nodeBody`. -/
theorem Writes.block {baton : DeBaton} {node : DeNode} {mid : DeltaState sys} {record : NodeRecord} {body : NodeBody}
    (writes : Writes baton node st record mid) (found : record.body = some body)
    (block : body.propContentLength.isSome) :
    DumpsProps baton node ∧ ∃ content, record.body = some (nodeBody baton node content) := by
  have dumps : ∀ content, body = nodeBody baton node content → DumpsProps baton node := by
    rintro content rfl
    by_contra quiet
    have : ¬ (node.propsChanged = true ∨ node.action = .add ∨ propLength baton node > 0) := quiet
    simp [nodeBody, this] at block
  cases writes with
  | deleted => cases found
  | unchanged => cases found
  | text =>
    cases found
    exact ⟨dumps _ rfl, _, rfl⟩
  | props =>
    cases found
    exact ⟨dumps _ rfl, _, rfl⟩

/-- A node that never lost a property is opened with those it has in the repository, and a version 2
block lists those it has after the changes, as long as what is stored is short. -/
theorem node_props_kept (injective : Set.InjOn sys.md5 known) (short : ∀ data ∈ known, data.length < 2147483648)
    (visited : PropVisits KeepsProps known path visits st) :
    (visits ≠ [] → ∀ kind parent, ∃ node st', openNode kind parent path st = .ok (node, st') ∧
      ∀ key, node.properties.lookup key = (repoProps visits).lookup key) ∧
    ∀ node st', Enters path st visits node st' → ∀ changes, ShowsProps (repoProps visits) changes →
      ∀ (baton : DeBaton) (last : DeNode) (before after : DeltaState sys) (record : NodeRecord) (body : NodeBody),
        baton.opts.dumpFormat = 2 → SamePropsAs last (changes.foldl changeProp node) →
        Writes baton last before record after → record.body = some body → body.propContentLength.isSome →
        ∀ old key, (loadProps old record).lookup key = (repoProps (visits ++ [changes])).lookup key := by
  have holds := visited.holds injective short
  refine ⟨fun entered kind parent => ?_, ?_⟩
  · obtain ⟨held, rep, -⟩ := id holds
    obtain ⟨loaded, after, done, -⟩ := rep.propertyLoad injective short path ∅
    have opens : openNode kind parent path st =
        .ok ({ deltaCreateNode path parent kind .modify with properties := loaded }, { st with propStore := after }) := by
      have loads : propertyLoad sys st.propStore path (deltaCreateNode path parent kind .modify).properties =
        some (loaded, after) := done
      unfold openNode
      dsimp only
      rw [loads]
      rfl
    exact ⟨_, _, opens, (Enters.loads injective short holds (.opened entered opens)).1⟩
  · intro node st' enters changes shows baton last before after record body format same writes found block old key
    obtain ⟨loaded, none, -⟩ := enters.loads injective short holds
    obtain ⟨dumps, content, written⟩ := writes.block found block
    rw [lookup_loadProps baton last content written, if_pos dumps, shownProps_eq loaded none shows same, format,
      repoProps_concat]
    exact Option.or_none

/-! A file whose property is deleted, and one that gets a second property. -/

def setProp (name : String) : PropChange := ⟨cstr name, some [49]⟩
def deleteProp (name : String) : PropChange := ⟨cstr name, none⟩

theorem elsewhere_cleanup {store : PropertyStorage} (done : propertyStorageCleanup st.propStore = some store) :
    Elsewhere known path st { st with propStore := store } := by
  refine ⟨[.cleanup], by simp [PropCall.path], by simp, ?_⟩
  rw [List.foldlM_cons, propStep, done]
  rfl

theorem elsewhere_refl : Elsewhere known path st st := ⟨[], by simp, by simp, rfl⟩

theorem namedChanges_setProp {name : String} (named : cstr name ≠ []) : NamedChanges [setProp name] := by
  intro change member _
  rw [List.mem_singleton.mp member]
  exact named

theorem namedChanges_deleteProp (name : String) : NamedChanges [deleteProp name] := by
  intro change member set
  rw [List.mem_singleton.mp member] at set
  exact absurd rfl set

/-- The property is back when the file is opened. -/
theorem deleted_prop_returns :
    ∃ st : DeltaState .plain,
      PropVisits (fun _ _ => True) Set.univ (cstr "f") [[setProp "k"], [deleteProp "k"]] st ∧
      ∃ node st', openNode .file deOpenRoot (cstr "f") st = .ok (node, st') ∧
        node.properties.lookup (cstr "k") = some [49] ∧
        (repoProps [[setProp "k"], [deleteProp "k"]]).lookup (cstr "k") = none := by
  have created : PropVisits (fun _ _ => True) Set.univ (cstr "f") [] (emptyDelta : DeltaState .plain) :=
    @PropVisits.start _ _ _ _ [] _ (by simp) rfl
  refine ⟨_, .visit (.elsewhere (.visit created
      (.file (show deAddFile copyBaton deOpenRoot (cstr "f") emptyDelta = .ok (_, _) from rfl)) elsewhere_refl
      (namedChanges_setProp (by decide)) trivial ⟨rfl, rfl, rfl⟩ rfl trivial) (elsewhere_cleanup rfl))
    (.opened (by simp) (show openNode .file deOpenRoot (cstr "f") _ = .ok (_, _) from rfl)) elsewhere_refl
    (namedChanges_deleteProp "k") trivial ⟨rfl, rfl, rfl⟩ rfl trivial, _, _, rfl, ?_, ?_⟩
  · decide
  · decide

theorem keepsProps_setProp (before : PropMap) (name : String) (regular : isRegularProp (cstr name) = true) :
    KeepsProps before [setProp name] := by
  rintro key ⟨change, member, -, rfl⟩ gone
  rw [List.mem_singleton.mp member] at gone
  have found := @lookup_applyChange_self before (setProp name) regular
  rw [List.foldl_cons, List.foldl_nil, found] at gone
  cases gone

def shortTexts : Set Bytes := {data | data.length < 2147483648}

theorem node_props_kept_second :
    ∃ st : DeltaState .plain, PropVisits KeepsProps shortTexts (cstr "f") [[setProp "k"]] st ∧
      ShowsProps (repoProps [[setProp "k"]]) [setProp "m"] ∧
      (∃ node st', openNode .file deOpenRoot (cstr "f") st = .ok (node, st') ∧
        ∀ key, node.properties.lookup key = (repoProps [[setProp "k"]]).lookup key) ∧
      ∀ node st', Enters (cstr "f") st [[setProp "k"]] node st' →
        ∀ (last : DeNode) (before after : DeltaState .plain) (record : NodeRecord) (body : NodeBody),
          SamePropsAs last ([setProp "m"].foldl changeProp node) → Writes copyBaton last before record after →
          record.body = some body → body.propContentLength.isSome →
          ∀ old key, (loadProps old record).lookup key = (repoProps [[setProp "k"], [setProp "m"]]).lookup key := by
  have created : PropVisits KeepsProps shortTexts (cstr "f") [] (emptyDelta : DeltaState .plain) :=
    @PropVisits.start _ _ _ _ [] _ (by simp) rfl
  have visited : PropVisits KeepsProps shortTexts (cstr "f") [[setProp "k"]] _ := .elsewhere (.visit created
    (.file (show deAddFile copyBaton deOpenRoot (cstr "f") emptyDelta = .ok (_, _) from rfl)) elsewhere_refl
    (namedChanges_setProp (by decide)) (keepsProps_setProp _ "k" (by decide)) ⟨rfl, rfl, rfl⟩ rfl
    (show (propHashSerialize _).length < 2147483648 by decide)) (elsewhere_cleanup rfl)
  have shows : ShowsProps (repoProps [[setProp "k"]]) [setProp "m"] := by
    refine ⟨?_, fun key value found => ?_⟩
    · rintro key ⟨change, member, -, -, gone⟩
      rw [List.mem_singleton.mp member] at gone
      cases gone
    · have all : ∀ e ∈ ([setProp "m"].foldl applyChange (repoProps [[setProp "k"]])).entries, 0 ∉ e.2 := by decide
      exact all ⟨key, value⟩ (AList.mem_lookup_iff.mp found)
  have injective : Set.InjOn Platform.plain.md5 shortTexts := Function.Injective.injOn Function.injective_id
  obtain ⟨opens, blocks⟩ := node_props_kept injective (fun _ short => short) visited
  refine ⟨_, visited, shows, opens (by simp) .file deOpenRoot, ?_⟩
  intro node st' enters last before after record body
  exact blocks node st' enters [setProp "m"] shows copyBaton last before after record body rfl

end Rsvndump
