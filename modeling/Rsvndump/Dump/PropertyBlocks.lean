import Rsvndump.Delta.Properties
import Rsvndump.Dump.Framing
import Rsvndump.Library.PropBlocks

/-! The property block of a node record (delta.c and property.c).

Values are printed as C strings together with the lengths of these, so a block can
always be read back. What is read is the property map unless a value is cut short.
-/

set_option autoImplicit false

namespace Rsvndump

open Library

/-- The line that ends a block. -/
def propsEndLine : Bytes := text "PROPS-END"

/-- Reads the properties of a record; what is left is its text. -/
def readPropertyBlock (block : Bytes) : Option (List PropEntry × Bytes) := readBlock propsEndLine (block.length + 1) block

/-- The entries are the properties that are not deleted and, in format 3, the deleted names, each of them once. -/
structure DecodesTo (format : Nat) (props : PropMap) (deleted : AprHash Unit) (entries : List PropEntry) : Prop where
  sets : ∀ name value, .set name value ∈ entries ↔
    ∃ key, name = CString.bytes key ∧ key ∉ deleted ∧ props.lookup key = some value
  deletes : ∀ name, .delete name ∈ entries ↔ format = 3 ∧ ∃ key ∈ deleted, name = CString.bytes key
  distinct : (entries.map PropEntry.name).Nodup

/-! ## Entries of a node -/

theorem bytes_injective {s t : CString} (same : CString.bytes s = CString.bytes t) : s = t := by
  rw [← CString.ofBytes_bytes s, same, CString.ofBytes_bytes]

def bodyEntries (body : NodeBody) : List PropEntry :=
  body.props.map (fun e => .set (CString.bytes e.1) (CString.bytes e.2)) ++
    body.delProps.map fun key => .delete (CString.bytes key)

theorem propsSection_render (body : NodeBody) :
    propsSection body.props body.delProps = (bodyEntries body).flatMap PropEntry.render ++ (propsEndLine ++ [lineEnd]) := by
  have set : ∀ key value : CString, propertyDump key value = (PropEntry.set (CString.bytes key) (CString.bytes value)).render := by
    intro key value
    have k : CString.bytes (cstr "K ") = [keyTag, space] := by decide
    have v : CString.bytes (cstr "V ") = [valueTag, space] := by decide
    simp [propertyDump, PropEntry.render, renderSized, k, v]
  have delete : propertyDelDump = fun key => (PropEntry.delete (CString.bytes key)).render := by
    funext key
    have d : CString.bytes (cstr "D ") = [deleteTag, space] := by decide
    simp [propertyDelDump, PropEntry.render, renderSized, d]
  simp only [propsSection, bodyEntries, List.flatMap_append, List.flatMap_map, set, delete, propsEnd, propsEndLine]

theorem length_le_render (entries : List PropEntry) (rest : Bytes) :
    entries.length ≤ (entries.flatMap PropEntry.render ++ rest).length := by
  induction entries with
  | nil => exact Nat.zero_le _
  | cons entry entries ih =>
    have some : 0 < entry.render.length := by
      cases entry <;> simp [PropEntry.render, renderSized]
    rw [List.flatMap_cons, List.append_assoc, List.length_append, List.length_cons]
    omega

/-- Every block is read back. -/
theorem readPropertyBlock_sections {body : NodeBody} (block : body.propContentLength.isSome) :
    readPropertyBlock (bodySections body) = some (bodyEntries body, body.text.getD []) := by
  rw [bodySections, if_pos block, propsSection_render, List.append_assoc, List.append_assoc, List.singleton_append]
  exact readBlock_render (by decide) (by decide) (Nat.lt_succ_of_le (length_le_render _ _)) _

/-- No value that is printed contains a zero byte. -/
def NoZeros (props : PropMap) (deleted : AprHash Unit) : Prop :=
  ∀ key value, props.lookup key = some value → key ∉ deleted → 0 ∉ value

section Entries

variable {baton : DeBaton} {node : DeNode} {content : Option Bytes}

theorem bodyEntries_nodeBody (block : (nodeBody baton node content).propContentLength.isSome) :
    bodyEntries (nodeBody baton node content) =
      (node.properties.entries.filter fun e => e.1 ∉ node.delProperties).map
          (fun e => .set (CString.bytes e.1) (printedValue e.2)) ++
        (if baton.opts.dumpFormat = 3 then node.delProperties.keys else []).map fun key => .delete (CString.bytes key) := by
  have dumps : node.propsChanged = true ∨ node.action = .add ∨ propLength baton node > 0 := by
    by_contra quiet
    simp [nodeBody, quiet] at block
  simp only [bodyEntries, nodeBody, if_pos dumps, printedProps, printedDelProps, List.map_map]
  rfl

theorem set_mem_bodyEntries (block : (nodeBody baton node content).propContentLength.isSome) (name value : Bytes) :
    .set name value ∈ bodyEntries (nodeBody baton node content) ↔
      ∃ key stored, name = CString.bytes key ∧ key ∉ node.delProperties ∧ node.properties.lookup key = some stored ∧
        value = printedValue stored := by
  rw [bodyEntries_nodeBody block, List.mem_append]
  constructor
  · rintro (member | member)
    · obtain ⟨e, found, same⟩ := List.mem_map.mp member
      obtain ⟨found, kept⟩ := List.mem_filter.mp found
      cases same
      exact ⟨e.1, e.2, rfl, by simpa using kept, AList.mem_lookup_iff.mpr found, rfl⟩
    · obtain ⟨key, -, wrong⟩ := List.mem_map.mp member
      cases wrong
  · rintro ⟨key, stored, rfl, kept, found, rfl⟩
    refine .inl (List.mem_map.mpr ⟨⟨key, stored⟩, List.mem_filter.mpr ⟨AList.mem_lookup_iff.mp found, ?_⟩, rfl⟩)
    simpa using kept

theorem delete_mem_bodyEntries (block : (nodeBody baton node content).propContentLength.isSome) (name : Bytes) :
    .delete name ∈ bodyEntries (nodeBody baton node content) ↔
      baton.opts.dumpFormat = 3 ∧ ∃ key ∈ node.delProperties, name = CString.bytes key := by
  rw [bodyEntries_nodeBody block, List.mem_append]
  constructor
  · rintro (member | member)
    · obtain ⟨e, -, wrong⟩ := List.mem_map.mp member
      cases wrong
    · obtain ⟨key, listed, same⟩ := List.mem_map.mp member
      cases same
      split at listed
      · next format => exact ⟨format, key, AList.mem_keys.mpr listed, rfl⟩
      · cases listed
  · rintro ⟨format, key, member, rfl⟩
    rw [if_pos format]
    exact .inr (List.mem_map.mpr ⟨key, AList.mem_keys.mp member, rfl⟩)

theorem nodup_bodyEntries (block : (nodeBody baton node content).propContentLength.isSome) :
    ((bodyEntries (nodeBody baton node content)).map PropEntry.name).Nodup := by
  have names : (bodyEntries (nodeBody baton node content)).map PropEntry.name =
      ((node.properties.entries.filter fun e => e.1 ∉ node.delProperties).map Sigma.fst ++
        (if baton.opts.dumpFormat = 3 then node.delProperties.keys else [])).map CString.bytes := by
    rw [bodyEntries_nodeBody block, List.map_append, List.map_map, List.map_map, List.map_append, List.map_map]
    rfl
  rw [names]
  refine List.Nodup.map (fun s t => bytes_injective) (List.nodup_append.mpr ⟨?_, ?_, ?_⟩)
  · exact node.properties.nodupKeys.sublist List.filter_sublist
  · split
    · exact node.delProperties.keys_nodup
    · exact List.nodup_nil
  · intro key first other second same
    subst same
    obtain ⟨e, found, rfl⟩ := List.mem_map.mp first
    have kept := (List.mem_filter.mp found).2
    split at second
    · exact absurd (AList.mem_keys.mpr second) (by simpa using kept)
    · cases second

/-- The entries are those of the map just when no value is cut short. -/
theorem decodesTo_nodeBody (block : (nodeBody baton node content).propContentLength.isSome) :
    DecodesTo baton.opts.dumpFormat node.properties node.delProperties (bodyEntries (nodeBody baton node content)) ↔
      NoZeros node.properties node.delProperties := by
  constructor
  · rintro ⟨sets, -, -⟩ key value found kept
    have printed := (set_mem_bodyEntries block _ _).mpr ⟨key, value, rfl, kept, found, rfl⟩
    obtain ⟨key', same, -, found'⟩ := (sets _ _).mp printed
    cases bytes_injective same
    exact printedValue_eq_iff.mp (Option.some.inj (found'.symm.trans found))
  · intro noZeros
    refine ⟨fun name value => ?_, delete_mem_bodyEntries block, nodup_bodyEntries block⟩
    rw [set_mem_bodyEntries block]
    constructor
    · rintro ⟨key, stored, rfl, kept, found, rfl⟩
      exact ⟨key, rfl, kept, by rw [found, printedValue_eq_iff.mpr (noZeros key stored found kept)]⟩
    · rintro ⟨key, rfl, kept, found⟩
      exact ⟨key, value, rfl, kept, found, (printedValue_eq_iff.mpr (noZeros key value found kept)).symm⟩

end Entries

/-! ## Dumped nodes -/

/-- The block in the stream is read back as the properties of the node, with its text left. -/
def BlockKept (baton : DeBaton) (node : DeNode) (body : NodeBody) : Prop :=
  ∃ entries, readPropertyBlock (bodySections body) = some (entries, body.text.getD []) ∧
    DecodesTo baton.opts.dumpFormat node.properties node.delProperties entries

/-- A node that is dumped with a block keeps its properties just when no value contains a zero byte. -/
theorem property_block_iff {sys : Platform} {baton : DeBaton} {above : List DeNode} {node node' : DeNode}
    {st st' : DeltaState sys} (ran : deltaDumpNode baton above node st = .ok (node', st')) :
    ∃ records, st'.out = st.out ++ records ∧ ∀ record ∈ records, ∀ body, record.body = some body →
      body.propContentLength.isSome → (BlockKept baton node body ↔ NoZeros node.properties node.delProperties) := by
  obtain ⟨-, -, same⟩ | ⟨-, last, mid, deleted, decided, frame, deletes, -, ran⟩ := deltaDumpNode_cases ran
  · exact ⟨[], by rw [same, List.append_nil], by simp⟩
  obtain ⟨record, written, writes, done⟩ := dumpRecord_cases ran
  refine ⟨deleted ++ [record], ?_, ?_⟩
  · rw [show st' = _ from congrArg Prod.snd done, finish_out, emit_out, writes.out, frame, List.append_assoc]
  intro record' member body found block
  rcases List.mem_append.mp member with member | member
  · rcases deletes with ⟨rfl, -⟩ | ⟨-, rfl⟩
    · cases member
    · cases List.mem_singleton.mp member
      cases found
  cases List.mem_singleton.mp member
  have props : last.properties = node.properties := by rw [decided]
  have delProps : last.delProperties = node.delProperties := by rw [decided]
  have own : ∃ content, body = nodeBody baton last content := by
    cases writes with
    | deleted => cases found
    | unchanged => cases found
    | text => exact ⟨_, (Option.some.inj found).symm⟩
    | props => exact ⟨_, (Option.some.inj found).symm⟩
  obtain ⟨content, rfl⟩ := own
  rw [BlockKept, readPropertyBlock_sections block, ← props, ← delProps, ← decodesTo_nodeBody block]
  constructor
  · rintro ⟨entries, read, decodes⟩
    cases read
    exact decodes
  · exact fun decodes => ⟨_, rfl, decodes⟩

/-! A new directory with one property. -/

def addedDir (value : Bytes) : DeNode :=
  changeProp { deltaCreateNodeNoParent (cstr "d") .dir .add with dumpNeeded := true } ⟨cstr "k", some value⟩

def addedBody (value : Bytes) : NodeBody := nodeBody copyBaton (addedDir value) none

def addedRecord (value : Bytes) : NodeRecord := presentRecord copyBaton (addedDir value) (some (addedBody value))

theorem property_block_lines : ∃ node' st',
    deltaDumpNode copyBaton [] (addedDir [10, 75, 10]) (emptyDelta : DeltaState .plain) = .ok (node', st') ∧
      st'.out = [addedRecord [10, 75, 10]] ∧ BlockKept copyBaton (addedDir [10, 75, 10]) (addedBody [10, 75, 10]) := by
  obtain ⟨node', st', ran, wrote⟩ : ∃ node' st',
      deltaDumpNode copyBaton [] (addedDir [10, 75, 10]) (emptyDelta : DeltaState .plain) = .ok (node', st') ∧
        st'.out = [addedRecord [10, 75, 10]] := ⟨_, _, rfl, rfl⟩
  obtain ⟨records, out, kept⟩ := property_block_iff ran
  have member : addedRecord [10, 75, 10] ∈ records := by
    rw [show records = st'.out from out.symm, wrote]
    exact List.mem_cons_self
  refine ⟨node', st', ran, wrote, (kept _ member _ rfl rfl).mpr ?_⟩
  intro key value found _
  have all : ∀ e ∈ (addedDir [10, 75, 10]).properties.entries, 0 ∉ e.2 := by decide
  exact all ⟨key, value⟩ (AList.mem_lookup_iff.mp found)

/-- Of a value with a zero byte only the front is read back. -/
theorem property_block_zero :
    (∃ node' st', deltaDumpNode copyBaton [] (addedDir [49, 0, 50]) (emptyDelta : DeltaState .plain) = .ok (node', st') ∧
      st'.out = [addedRecord [49, 0, 50]]) ∧
      readPropertyBlock (bodySections (addedBody [49, 0, 50])) = some ([.set (text "k") [49]], []) ∧
      ¬ BlockKept copyBaton (addedDir [49, 0, 50]) (addedBody [49, 0, 50]) := by
  have read : readPropertyBlock (bodySections (addedBody [49, 0, 50])) = some ([.set (text "k") [49]], []) := by decide
  refine ⟨⟨_, _, rfl, rfl⟩, read, ?_⟩
  rintro ⟨entries, read', decodes⟩
  cases read.symm.trans read'
  obtain ⟨key, -, -, found⟩ := (decodes.sets (text "k") [49]).mp List.mem_cons_self
  have all : ∀ e ∈ (addedDir [49, 0, 50]).properties.entries, e.2 ≠ [49] := by decide
  exact all ⟨key, [49]⟩ (AList.mem_lookup_iff.mp found) rfl

end Rsvndump
