import Rsvndump.Delta.Stream
import Rsvndump.Dump.Loop

/-! The bytes of the dump (dump.c, delta.c and property.c).

Lengths are computed in one place and the bytes they stand for are printed in
another one. A reader that trusts the length headers finds the records again.
-/

set_option autoImplicit false

namespace Rsvndump

open Library

/-! ## Values -/

def text (s : String) : Bytes := CString.bytes (cstr s)

/-- `printf("%ld")` -/
def printInt (n : Int) : Bytes := if n < 0 then 45 :: decimal n.natAbs else decimal n.natAbs

def md5Digit (n : Nat) : UInt8 := UInt8.ofNat (if n < 10 then 48 + n else 87 + n)

/-- `svn_md5_digest_to_cstring` -/
def svnMd5DigestToCstring (digest : Digest) : Bytes :=
  digest.flatMap fun b => [md5Digit (b.toNat / 16), md5Digit (b.toNat % 16)]

/-- `printf("%s: %s\n", name, value)` prints the line of a field. -/
def field (name : String) (value : Bytes) : Header := (text name, value)

/-! ## Sections -/

/-- `PROPS_END` -/
def propsEnd : Bytes := text "PROPS-END" ++ [lineEnd]

def propsSection (props : List (CString × CString)) (delProps : List CString) : Bytes :=
  props.flatMap (fun e => propertyDump e.1 e.2) ++ delProps.flatMap propertyDelDump ++ propsEnd

/-! ## Revisions -/

/-- The properties of a revision. -/
def revisionProps (log : LogRevision) : List (CString × CString) :=
  (log.message.map fun value => (cstr "svn:log", value)).toList ++
    (log.author.map fun value => (cstr "svn:author", value)).toList ++
    (log.date.map fun value => (cstr "svn:date", value)).toList

/-- `+=` on an `int` -/
def addLength (length : Int) (n : Nat) : Int := (length + n).bmod 4294967296

/-- The `int` to which the lengths of some properties are added. -/
def addLengths (props : List (CString × CString)) : Int :=
  props.foldl (fun length e => addLength length (propertyStrlen e.1 e.2)) 0

/-- `props_length` in `dump_revision_header` -/
def propsLength (log : LogRevision) : Int :=
  let length := addLengths (revisionProps log)
  if length > 0 then addLength length propsEndLen else length

/-- The section a revision header should have. -/
def revisionSection (log : LogRevision) : Bytes :=
  if revisionProps log = [] then [] else propsSection (revisionProps log) []

def revisionHeaders (number length : Int) : List Header :=
  [field "Revision-number" (printInt number), field "Prop-content-length" (printInt length),
    field "Content-length" (printInt length)]

/-- Dumps a revision header using the given properties. -/
def dumpRevisionHeader (log : LogRevision) (number : Int) : Bytes :=
  (revisionHeaders number (propsLength log)).flatMap headerLine ++
    lineEnd :: (if propsLength log > 0 then propsSection (revisionProps log) [] ++ [lineEnd] else [])

def paddingProps : List (CString × CString) := [(cstr "svn:log", cstr "This is an empty revision for padding.")]

/-- Dumps an empty revision for padding the given number. -/
def dumpPaddingRevision (number : Int) : Bytes :=
  let length := addLength (addLengths paddingProps) propsEndLen
  (revisionHeaders number length).flatMap headerLine ++ lineEnd :: (propsSection paddingProps [] ++ [lineEnd])

/-! ## Nodes -/

def kindHeaders (kind : Option NodeKind) : List Header :=
  (kind.map fun kind => field "Node-kind" (text (if kind = .file then "file" else "dir"))).toList

def Action.word : Action → Bytes
  | .modify => text "change"
  | .add => text "add"
  | .delete => text "delete"
  | .replace => text "replace"

def copyHeaders (copyfrom : Option (CString × Int)) : List Header :=
  match copyfrom with
  | none => []
  | some (path, revision) =>
      [field "Node-copyfrom-rev" (printInt revision), field "Node-copyfrom-path" (CString.bytes path)]

def flagHeader (name : String) (flag : Bool) : List Header := if flag then [field name (text "true")] else []

def lengthHeader (name : String) (length : Option Nat) : List Header :=
  (length.map fun n => field name (decimal n)).toList

def bodyHeaders (body : NodeBody) : List Header :=
  flagHeader "Prop-delta" body.propDelta ++ lengthHeader "Prop-content-length" body.propContentLength ++
    flagHeader "Text-delta" body.textDelta ++ lengthHeader "Text-content-length" body.textContentLength ++
    (body.textContentMd5.map fun digest => field "Text-content-md5" (svnMd5DigestToCstring digest)).toList ++
    [field "Content-length" (decimal body.contentLength)]

def nodeHeaders (record : NodeRecord) : List Header :=
  field "Node-path" (CString.bytes record.path) :: kindHeaders record.kind ++
    field "Node-action" record.action.word :: copyHeaders record.copyfrom ++
    (record.body.map bodyHeaders).getD []

/-- The properties are printed with their length, and the file is copied to the stream. -/
def bodySections (body : NodeBody) : Bytes :=
  (if body.propContentLength.isSome then propsSection body.props body.delProps else []) ++ body.text.getD []

def dumpNode (record : NodeRecord) : Bytes :=
  (nodeHeaders record).flatMap headerLine ++
    (match record.body with
    | none => []
    | some body => lineEnd :: bodySections body) ++ [lineEnd, lineEnd]

/-! ## The stream -/

/-- The bytes of everything that is printed. -/
def printOutput : Output → Bytes
  | .magic format => headerLine (field "SVN-fs-dump-format-version" (decimal format)) ++ [lineEnd]
  | .uuid id => headerLine (field "UUID" (CString.bytes id)) ++ [lineEnd]
  | .revision log number => dumpRevisionHeader log number
  | .padding number => dumpPaddingRevision number
  | .prefixDir path =>
      [field "Node-path" (CString.bytes path), field "Node-kind" (text "dir"), field "Node-action" (text "add")].flatMap
        headerLine ++ [lineEnd]
  | .node record => dumpNode record

/-- The headers that announce a section. -/
def sectionNames : List Bytes := [text "Prop-content-length", text "Text-content-length"]

/-- The record a reader should find: the headers and the sections for properties and text. -/
def outputFrame : Output → Frame
  | .magic format => ⟨[field "SVN-fs-dump-format-version" (decimal format)], [none, none]⟩
  | .uuid id => ⟨[field "UUID" (CString.bytes id)], [none, none]⟩
  | .revision log number =>
      ⟨revisionHeaders number (propsLength log),
        [some (revisionSection log), none]⟩
  | .padding number =>
      ⟨revisionHeaders number (propsSection paddingProps []).length, [some (propsSection paddingProps []), none]⟩
  | .prefixDir path =>
      ⟨[field "Node-path" (CString.bytes path), field "Node-kind" (text "dir"), field "Node-action" (text "add")],
        [none, none]⟩
  | .node record =>
      ⟨nodeHeaders record,
        [record.body.bind fun body => body.propContentLength.map fun _ => propsSection body.props body.delProps,
          record.body.bind fun body => body.text]⟩

/-! ## Lengths -/

theorem parseDecimal_printInt (n : Int) : parseDecimal (printInt n) = if n < 0 then none else some n.natAbs := by
  unfold printInt
  split
  · have : (45 :: decimal n.natAbs).all isDecimalDigit = false := by
      rw [List.all_cons, show isDecimalDigit 45 = false from by decide, Bool.false_and]
    simp [parseDecimal, this]
  · exact parseDecimal_decimal _

theorem lineEnd_notMem_printInt (n : Int) : lineEnd ∉ printInt n := by
  unfold printInt
  split
  · rw [List.mem_cons, not_or]
    exact ⟨by decide, lineEnd_notMem_decimal _⟩
  · exact lineEnd_notMem_decimal _

theorem md5Digit_ne_lineEnd {n : Nat} (small : n < 16) : md5Digit n ≠ lineEnd := by
  revert n
  decide

theorem lineEnd_notMem_digest (digest : Digest) : lineEnd ∉ svnMd5DigestToCstring digest := by
  simp only [svnMd5DigestToCstring, List.mem_flatMap, List.mem_cons, List.not_mem_nil, or_false, not_exists, not_and,
    not_or]
  intro b _
  have := b.toNat_lt
  exact ⟨(md5Digit_ne_lineEnd (by omega)).symm, (md5Digit_ne_lineEnd (by omega)).symm⟩

theorem length_flatMap_propertyDump (props : List (CString × CString)) :
    (props.flatMap fun e => propertyDump e.1 e.2).length = (props.map fun e => propertyStrlen e.1 e.2).sum :=
  List.length_flatMap

theorem length_propsSection (props : List (CString × CString)) (delProps : List CString) :
    (propsSection props delProps).length =
      (props.map fun e => propertyStrlen e.1 e.2).sum + (delProps.map propertyDelStrlen).sum + propsEndLen := by
  have dels : (delProps.flatMap propertyDelDump).length = (delProps.map propertyDelStrlen).sum := List.length_flatMap
  rw [propsSection, List.length_append, List.length_append, length_flatMap_propertyDump, dels]
  rfl

theorem addLengths_eq (props : List (CString × CString)) :
    addLengths props = ((props.map fun e => propertyStrlen e.1 e.2).sum : Int).bmod 4294967296 := by
  have sums (start : Int) : props.foldl (fun length e => addLength length (propertyStrlen e.1 e.2))
      (start.bmod 4294967296) = (start + (props.map fun e => propertyStrlen e.1 e.2).sum : Int).bmod 4294967296 := by
    induction props generalizing start with
    | nil => simp
    | cons e props ih =>
      rw [List.foldl_cons, addLength, Int.bmod_add_bmod, ih, List.map_cons, List.sum_cons, Int.natCast_add,
        Int.add_assoc]
  simpa [addLengths] using sums 0

theorem propertyStrlen_pos (key value : CString) : 0 < propertyStrlen key value := by
  simp only [propertyStrlen, propertyDump, List.length_append, List.length_cons]
  omega

/-- The length of a revision's properties is the one that is printed unless it is too long. -/
theorem propsLength_eq_iff (log : LogRevision) :
    propsLength log = (revisionSection log).length ↔ (revisionSection log).length < 2147483648 := by
  unfold propsLength revisionSection
  by_cases none : revisionProps log = []
  · simp [none, addLengths]
  · obtain ⟨e, props, same⟩ := List.exists_cons_of_ne_nil none
    have positive : 0 < ((revisionProps log).map fun e => propertyStrlen e.1 e.2).sum := by
      rw [same, List.map_cons, List.sum_cons]
      exact Nat.add_pos_left (propertyStrlen_pos _ _) _
    simp only [if_neg none, length_propsSection, List.map_nil, List.sum_nil, Nat.add_zero, addLengths_eq, addLength]
    generalize ((revisionProps log).map fun e => propertyStrlen e.1 e.2).sum = total at positive
    have bound := @Int.bmod_lt total 4294967296 (by decide)
    have bound' := @Int.bmod_lt (total + propsEndLen) 4294967296 (by decide)
    rw [Int.bmod_add_bmod]
    constructor
    · intro equal
      split at equal
      · omega
      · omega
    · intro small
      have exact' : (total : Int).bmod 4294967296 = total := Int.bmod_eq_of_le (by omega) (by omega)
      have sum : (total + propsEndLen : Int).bmod 4294967296 = total + propsEndLen :=
        Int.bmod_eq_of_le (by omega) (by omega)
      rw [exact', sum, if_pos (by omega)]
      rfl

/-! ## Headers -/

section Lookup

variable {name other : String} (apart : text name ≠ text other)

include apart

theorem lookup_field_ne (value : Bytes) (headers : List Header) :
    (field other value :: headers).lookup (text name) = headers.lookup (text name) := by
  rw [field, List.lookup_cons, beq_eq_false_iff_ne.mpr apart]

theorem lookup_flagHeader_ne (flag : Bool) : (flagHeader other flag).lookup (text name) = none := by
  cases flag with
  | false => rfl
  | true => exact lookup_field_ne apart _ []

theorem lookup_lengthHeader_ne (length : Option Nat) : (lengthHeader other length).lookup (text name) = none := by
  cases length with
  | none => rfl
  | some n => exact lookup_field_ne apart _ []

end Lookup

@[simp] theorem lookup_field_self (name : String) (value : Bytes) (headers : List Header) :
    (field name value :: headers).lookup (text name) = some value := by
  simp [field]

theorem lookup_lengthHeader_self (name : String) (length : Option Nat) :
    (lengthHeader name length).lookup (text name) = length.map decimal := by
  cases length with
  | none => rfl
  | some n => exact lookup_field_self _ _ []

/-- The headers in front of the lengths. -/
def frontNames : List String := ["Node-path", "Node-kind", "Node-action", "Node-copyfrom-rev", "Node-copyfrom-path"]

theorem lookup_nodeHeaders {name : String} (apart : ∀ other ∈ frontNames, text name ≠ text other) (record : NodeRecord) :
    (nodeHeaders record).lookup (text name) = (record.body.bind fun body => (bodyHeaders body).lookup (text name)) := by
  simp only [frontNames, List.forall_mem_cons] at apart
  obtain ⟨path, kind, action, copyRev, copyPath, -⟩ := apart
  have kinds : (kindHeaders record.kind).lookup (text name) = none := by
    cases record.kind with
    | none => rfl
    | some kind' => exact lookup_field_ne kind _ []
  have copies : (copyHeaders record.copyfrom).lookup (text name) = none := by
    cases record.copyfrom with
    | none => rfl
    | some source => exact (lookup_field_ne copyRev _ _).trans (lookup_field_ne copyPath _ [])
  rw [nodeHeaders, List.lookup_append, List.cons_append, lookup_field_ne path, List.lookup_append, kinds,
    lookup_field_ne action, copies]
  cases record.body <;> rfl

/-- Only the lengths of a body matter for a reader. -/
theorem lookup_bodyHeaders {name : String}
    (apart : ∀ other ∈ ["Prop-delta", "Text-delta", "Text-content-md5"], text name ≠ text other) (body : NodeBody) :
    (bodyHeaders body).lookup (text name) =
      ((lengthHeader "Prop-content-length" body.propContentLength).lookup (text name)).or
        (((lengthHeader "Text-content-length" body.textContentLength).lookup (text name)).or
          ([field "Content-length" (decimal body.contentLength)].lookup (text name))) := by
  simp only [List.forall_mem_cons] at apart
  obtain ⟨propDelta, textDelta, md5, -⟩ := apart
  have digest : (body.textContentMd5.map fun digest => field "Text-content-md5" (svnMd5DigestToCstring digest)).toList.lookup
      (text name) = none := by
    cases body.textContentMd5 with
    | none => rfl
    | some digest => exact lookup_field_ne md5 _ []
  simp only [bodyHeaders, List.lookup_append, lookup_flagHeader_ne propDelta, lookup_flagHeader_ne textDelta, digest,
    Option.none_or, Option.or_none, Option.or_assoc]

theorem lookup_propContentLength (record : NodeRecord) :
    (nodeHeaders record).lookup (text "Prop-content-length") =
      (record.body.bind NodeBody.propContentLength).map decimal := by
  rw [lookup_nodeHeaders (by decide)]
  cases record.body with
  | none => rfl
  | some body =>
    rw [Option.bind_some, lookup_bodyHeaders (by decide), lookup_lengthHeader_self,
      lookup_lengthHeader_ne (by decide), lookup_field_ne (by decide), List.lookup_nil, Option.none_or, Option.or_none]
    rfl

theorem lookup_textContentLength (record : NodeRecord) :
    (nodeHeaders record).lookup (text "Text-content-length") =
      (record.body.bind NodeBody.textContentLength).map decimal := by
  rw [lookup_nodeHeaders (by decide)]
  cases record.body with
  | none => rfl
  | some body =>
    rw [Option.bind_some, lookup_bodyHeaders (by decide), lookup_lengthHeader_self,
      lookup_lengthHeader_ne (by decide), lookup_field_ne (by decide), List.lookup_nil, Option.none_or, Option.or_none]
    rfl

theorem lookup_contentLength (record : NodeRecord) :
    (nodeHeaders record).lookup (text "Content-length") =
      (record.body.map NodeBody.contentLength).map decimal := by
  rw [lookup_nodeHeaders (by decide)]
  cases record.body with
  | none => rfl
  | some body =>
    rw [Option.bind_some, lookup_bodyHeaders (by decide), lookup_lengthHeader_ne (by decide),
      lookup_lengthHeader_ne (by decide), lookup_field_self, Option.none_or, Option.none_or]
    rfl

/-! ## Records -/

/-- The records that are printed come from nodes. -/
def Emitted (sys : Platform) : Output → Prop
  | .node record => ∃ baton, WrittenFor sys baton (fun _ => True) record
  | _ => True

/-- The lengths of a body are those of its sections. -/
structure NodeBody.Sized (body : NodeBody) : Prop where
  props : ∀ length, body.propContentLength = some length → length = (propsSection body.props body.delProps).length
  text : body.textContentLength = body.text.map List.length
  content : body.contentLength = (bodySections body).length

theorem nodeBody_sized (baton : DeBaton) (node : DeNode) (content : Option Bytes) :
    (nodeBody baton node content).Sized := by
  have whole : (propsSection (printedProps node) (printedDelProps baton node)).length =
      propLength baton node + propsEndLen := length_propsSection _ _
  by_cases dumps : node.propsChanged = true ∨ node.action = .add ∨ propLength baton node > 0
  · refine ⟨fun length found => ?_, rfl, ?_⟩
    · simp only [nodeBody, if_pos dumps, Option.some.injEq] at found ⊢
      rw [whole, found]
    · simp only [nodeBody, if_pos dumps, bodySections, Option.isSome_some, if_true, List.length_append, whole]
      cases content <;> rfl
  · have nothing : propLength baton node = 0 := by
      simp only [not_or, Nat.not_lt, gt_iff_lt] at dumps
      omega
    refine ⟨fun length found => ?_, rfl, ?_⟩
    · simp only [nodeBody, if_neg dumps] at found
      cases found
    · simp only [nodeBody, if_neg dumps, bodySections]
      rw [nothing]
      cases content <;> simp

theorem body_sized {sys : Platform} {baton : DeBaton} {holds : CString → Prop} {record : NodeRecord}
    (written : WrittenFor sys baton holds record) {body : NodeBody} (found : record.body = some body) : body.Sized := by
  obtain ⟨node, st, mid, -, writes⟩ := written
  cases writes with
  | deleted => cases found
  | unchanged => cases found
  | text =>
    cases found
    exact nodeBody_sized _ _ _
  | props =>
    cases found
    exact nodeBody_sized _ _ _

/-- The values that come from the repository fit on one line. -/
def OneLine : Output → Prop
  | .uuid id => lineEnd ∉ CString.bytes id
  | .prefixDir path => lineEnd ∉ CString.bytes path
  | .node record =>
      lineEnd ∉ CString.bytes record.path ∧ ∀ source revision, record.copyfrom = some (source, revision) →
        lineEnd ∉ CString.bytes source
  | .magic _ | .revision _ _ | .padding _ => True

/-- The properties of a revision header are not too long for an `int`. -/
def HeaderFits : Output → Prop
  | .revision log _ => (revisionSection log).length < 2147483648
  | _ => True

/-- The blank lines behind a record. -/
def blanks : Output → Nat
  | .revision log _ => if revisionProps log = [] then 0 else 1
  | .padding _ => 1
  | .node record => if record.body.isSome then 2 else 1
  | .magic _ | .uuid _ | .prefixDir _ => 0

theorem clean_field {name : String} {value : Bytes} (plain : colon ∉ text name ∧ lineEnd ∉ text name)
    (oneLine : lineEnd ∉ value) : (field name value).Clean :=
  ⟨plain.1, plain.2, oneLine⟩

theorem clean_revisionHeaders (number length : Int) : ∀ header ∈ revisionHeaders number length, header.Clean := by
  simp only [revisionHeaders, List.forall_mem_cons, List.not_mem_nil, false_imp_iff, implies_true, and_true]
  exact ⟨clean_field (by decide) (lineEnd_notMem_printInt _), clean_field (by decide) (lineEnd_notMem_printInt _),
    clean_field (by decide) (lineEnd_notMem_printInt _)⟩

theorem clean_flagHeader {name : String} (plain : colon ∉ text name ∧ lineEnd ∉ text name) (flag : Bool) :
    ∀ header ∈ flagHeader name flag, header.Clean := by
  cases flag with
  | false => simp [flagHeader]
  | true => simpa [flagHeader] using clean_field plain (show lineEnd ∉ text "true" by decide)

theorem clean_lengthHeader {name : String} (plain : colon ∉ text name ∧ lineEnd ∉ text name) (length : Option Nat) :
    ∀ header ∈ lengthHeader name length, header.Clean := by
  cases length with
  | none => simp [lengthHeader]
  | some n => simpa [lengthHeader] using clean_field plain (lineEnd_notMem_decimal n)

theorem clean_bodyHeaders (body : NodeBody) : ∀ header ∈ bodyHeaders body, header.Clean := by
  have digest : ∀ header ∈ (body.textContentMd5.map fun digest =>
      field "Text-content-md5" (svnMd5DigestToCstring digest)).toList, header.Clean := by
    cases body.textContentMd5 with
    | none => simp
    | some digest => simpa using clean_field (by decide) (lineEnd_notMem_digest digest)
  simp only [bodyHeaders, List.forall_mem_append, List.forall_mem_singleton]
  exact ⟨⟨⟨⟨⟨clean_flagHeader (by decide) _, clean_lengthHeader (by decide) _⟩, clean_flagHeader (by decide) _⟩,
    clean_lengthHeader (by decide) _⟩, digest⟩, clean_field (by decide) (lineEnd_notMem_decimal _)⟩

theorem clean_nodeHeaders {record : NodeRecord} (oneLine : OneLine (.node record)) :
    ∀ header ∈ nodeHeaders record, header.Clean := by
  have kinds : ∀ header ∈ kindHeaders record.kind, header.Clean := by
    rcases record.kind with _ | kind
    · simp [kindHeaders]
    · simp only [kindHeaders, Option.map_some, Option.toList_some, List.forall_mem_singleton]
      exact clean_field (by decide) (by split <;> decide)
  have copies : ∀ header ∈ copyHeaders record.copyfrom, header.Clean := by
    rcases source : record.copyfrom with _ | ⟨path, revision⟩
    · simp [copyHeaders]
    · simp only [copyHeaders, List.forall_mem_cons, List.not_mem_nil, false_imp_iff, implies_true, and_true]
      exact ⟨clean_field (by decide) (lineEnd_notMem_printInt _), clean_field (by decide) (oneLine.2 _ _ source)⟩
  have body : ∀ header ∈ (record.body.map bodyHeaders).getD [], header.Clean := by
    rcases record.body with _ | body
    · simp
    · exact clean_bodyHeaders body
  have action : lineEnd ∉ record.action.word := by cases record.action <;> decide
  simp only [nodeHeaders, List.forall_mem_append, List.forall_mem_cons]
  exact ⟨⟨⟨clean_field (by decide) oneLine.1, kinds⟩, clean_field (by decide) action, copies⟩, body⟩

/-! ## Framing -/

/-- A content length is the number of bytes in the sections. -/
def SumStated (frame : Frame) : Prop :=
  ∀ value, frame.headers.lookup (text "Content-length") = some value →
    parseDecimal value = some (sectionBytes frame.sections).length

theorem lookup_revisionHeaders (number length : Int) :
    (revisionHeaders number length).lookup (text "Prop-content-length") = some (printInt length) ∧
      (revisionHeaders number length).lookup (text "Text-content-length") = none ∧
      (revisionHeaders number length).lookup (text "Content-length") = some (printInt length) := by
  refine ⟨?_, ?_, ?_⟩
  · rw [revisionHeaders, lookup_field_ne (by decide), lookup_field_self]
  · rw [revisionHeaders, lookup_field_ne (by decide), lookup_field_ne (by decide), lookup_field_ne (by decide)]
    rfl
  · rw [revisionHeaders, lookup_field_ne (by decide), lookup_field_ne (by decide), lookup_field_self]

theorem sized_revisionHeaders_iff (number length : Int) (section' : Bytes) :
    Sized (revisionHeaders number length) sectionNames [some section', none] ↔ length = section'.length := by
  obtain ⟨props, content, -⟩ := lookup_revisionHeaders number length
  simp only [Sized, sectionNames, props, content, Option.map_some, Option.map_none, Option.some.injEq, and_true,
    parseDecimal_printInt]
  split
  · simp only [reduceCtorEq, false_iff]
    omega
  · rw [Option.some.injEq]
    omega

theorem sized_none {headers : List Header} (props : headers.lookup (text "Prop-content-length") = none)
    (content : headers.lookup (text "Text-content-length") = none) : Sized headers sectionNames [none, none] := by
  simp only [Sized, sectionNames, props, content, Option.map_none, and_self]

theorem sized_nodeHeaders {record : NodeRecord} (sized : ∀ body, record.body = some body → body.Sized) :
    Sized (nodeHeaders record) sectionNames (outputFrame (.node record)).sections := by
  simp only [Sized, sectionNames, outputFrame, lookup_propContentLength, lookup_textContentLength, and_true, Option.map_map]
  cases found : record.body with
  | none => simp
  | some body =>
    have here := sized body found
    constructor
    · cases length : body.propContentLength with
      | none => simp [length]
      | some n => simp [length, here.props n length]
    · simp [here.text, Function.comp_def]

theorem fits_of_sized {o : Output} (sized : Sized (outputFrame o).headers sectionNames (outputFrame o).sections) :
    HeaderFits o := by
  cases o with
  | revision log number =>
    exact (propsLength_eq_iff log).mp ((sized_revisionHeaders_iff _ _ _).mp sized)
  | _ => trivial

theorem lookup_prefixDir {name : String} (apart : ∀ other ∈ frontNames, text name ≠ text other) (path : CString) :
    (outputFrame (.prefixDir path)).headers.lookup (text name) = none := by
  simp only [frontNames, List.forall_mem_cons] at apart
  obtain ⟨path', kind, action, -⟩ := apart
  exact (lookup_field_ne path' _ _).trans ((lookup_field_ne kind _ _).trans (lookup_field_ne action _ []))

theorem padding_length : addLength (addLengths paddingProps) propsEndLen = (propsSection paddingProps []).length := by
  decide

/-- Each output that fits is a record that can be read. -/
theorem output_regular {sys : Platform} {o : Output} (emitted : Emitted sys o) (oneLine : OneLine o)
    (fits : HeaderFits o) : (outputFrame o).Regular sectionNames := by
  cases o with
  | magic format =>
    refine ⟨by simp [outputFrame], ?_, ?_⟩
    · simpa [outputFrame] using clean_field (by decide) (lineEnd_notMem_decimal format)
    · exact sized_none (lookup_field_ne (by decide) _ []) (lookup_field_ne (by decide) _ [])
  | uuid id =>
    refine ⟨by simp [outputFrame], ?_, ?_⟩
    · simpa [outputFrame] using clean_field (by decide) oneLine
    · exact sized_none (lookup_field_ne (by decide) _ []) (lookup_field_ne (by decide) _ [])
  | revision log number =>
    refine ⟨by simp [outputFrame, revisionHeaders], clean_revisionHeaders _ _, ?_⟩
    exact (sized_revisionHeaders_iff _ _ _).mpr ((propsLength_eq_iff log).mpr fits)
  | padding number =>
    exact ⟨by simp [outputFrame, revisionHeaders], clean_revisionHeaders _ _, (sized_revisionHeaders_iff _ _ _).mpr rfl⟩
  | prefixDir path =>
    refine ⟨by simp [outputFrame], ?_, ?_⟩
    · simp only [outputFrame, List.forall_mem_cons, List.not_mem_nil, false_imp_iff, implies_true, and_true]
      exact ⟨clean_field (by decide) oneLine, clean_field (by decide) (by decide),
        clean_field (by decide) (by decide)⟩
    · exact sized_none (lookup_prefixDir (by decide) path) (lookup_prefixDir (by decide) path)
  | node record =>
    obtain ⟨baton, written⟩ := emitted
    exact ⟨by simp [outputFrame, nodeHeaders], clean_nodeHeaders oneLine,
      sized_nodeHeaders fun body found => body_sized written found⟩

theorem sectionBytes_node (record : NodeRecord) :
    sectionBytes (outputFrame (.node record)).sections = (record.body.map bodySections).getD [] := by
  cases found : record.body with
  | none => simp [outputFrame, found, sectionBytes]
  | some body => cases length : body.propContentLength <;> simp [outputFrame, found, length, sectionBytes, bodySections]

/-- What is printed is the record and some blank lines. -/
theorem output_render {o : Output} (fits : HeaderFits o) : printOutput o = renderFrame (outputFrame o) (blanks o) := by
  cases o with
  | magic format => simp [printOutput, renderFrame, outputFrame, blanks, sectionBytes]
  | uuid id => simp [printOutput, renderFrame, outputFrame, blanks, sectionBytes]
  | prefixDir path => simp [printOutput, renderFrame, outputFrame, blanks, sectionBytes]
  | padding number =>
    simp [printOutput, renderFrame, outputFrame, blanks, sectionBytes, dumpPaddingRevision, padding_length]
  | revision log number =>
    have length := (propsLength_eq_iff log).mpr fits
    rw [printOutput, dumpRevisionHeader]
    by_cases none : revisionProps log = []
    · have nothing : revisionSection log = [] := if_pos none
      rw [nothing] at length
      simp [renderFrame, outputFrame, blanks, sectionBytes, none, nothing, length]
    · have whole : revisionSection log = propsSection (revisionProps log) [] := if_neg none
      have positive : propsLength log > 0 := by
        rw [length, whole, length_propsSection, propsEndLen]
        omega
      simp [renderFrame, outputFrame, blanks, sectionBytes, none, whole, positive]
  | node record =>
    rw [printOutput, renderFrame, sectionBytes_node, dumpNode]
    cases found : record.body <;> simp [outputFrame, blanks, found, List.replicate_succ]

theorem sumStated_of_absent {frame : Frame} (absent : frame.headers.lookup (text "Content-length") = none) :
    SumStated frame := by
  intro value found
  rw [absent] at found
  cases found

theorem sumStated_revision {number length : Int} {section' : Bytes} (same : length = section'.length) :
    SumStated ⟨revisionHeaders number length, [some section', none]⟩ := by
  intro value found
  rw [(lookup_revisionHeaders number length).2.2, Option.some.injEq] at found
  rw [← found, parseDecimal_printInt, if_neg (by omega), same]
  simp [sectionBytes]

theorem output_sumStated {sys : Platform} {o : Output} (emitted : Emitted sys o) (fits : HeaderFits o) :
    SumStated (outputFrame o) := by
  cases o with
  | magic format => exact sumStated_of_absent (lookup_field_ne (by decide) _ [])
  | uuid id => exact sumStated_of_absent (lookup_field_ne (by decide) _ [])
  | prefixDir path => exact sumStated_of_absent (lookup_prefixDir (by decide) path)
  | padding number => exact sumStated_revision rfl
  | revision log number => exact sumStated_revision ((propsLength_eq_iff log).mpr fits)
  | node record =>
    obtain ⟨baton, written⟩ := emitted
    intro value found
    rw [sectionBytes_node]
    rw [outputFrame, lookup_contentLength] at found
    cases body : record.body with
    | none => simp [body] at found
    | some body' =>
      rw [body, Option.map_some, Option.map_some, Option.some.injEq] at found
      rw [← found, parseDecimal_decimal, (body_sized written body).content]
      rfl

/-- A reader finds the records of the dump, with the lengths they state, exactly if no revision
header is too long. -/
theorem framing_iff {sys : Platform} {outs : List Output} (emitted : ∀ o ∈ outs, Emitted sys o)
    (oneLine : ∀ o ∈ outs, OneLine o) :
    (readStream sectionNames (outs.flatMap printOutput) = some (outs.map outputFrame) ∧
        ∀ o ∈ outs, SumStated (outputFrame o)) ↔
      ∀ o ∈ outs, HeaderFits o := by
  constructor
  · rintro ⟨read, -⟩ o member
    exact fits_of_sized (readStream_sized read _ (List.mem_map_of_mem member))
  · intro fits
    refine ⟨?_, fun o member => output_sumStated (emitted o member) (fits o member)⟩
    have regular : ∀ item ∈ outs.map fun o => (outputFrame o, blanks o), item.1.Regular sectionNames := by
      intro item listed
      obtain ⟨o, member, rfl⟩ := List.mem_map.mp listed
      exact output_regular (emitted o member) (oneLine o member) (fits o member)
    have read := readStream_render regular
    rw [List.flatMap_map, List.map_map] at read
    have printed : outs.flatMap printOutput = outs.flatMap fun o => renderFrame (outputFrame o) (blanks o) :=
      List.flatMap_congr fun o member => output_render (fits o member)
    rw [printed]
    exact read

/-! A small stream, and a revision with a long message. -/

def smallBaton : DeBaton := ⟨⟨[]⟩, { DumpOptions.create with dumpFormat := 3 }, [], .dummy, 1⟩

/-- A file with a property, whose text begins with blank lines. -/
def smallFile : DeNode :=
  { deltaCreateNodeNoParent (cstr "f") .file .add with
    filename := some 0
    properties := AList.singleton (cstr "k") [49]
    appliedDelta := true }

def smallText : Bytes := [10, 10, 97]

/-- A directory that gets one property and loses another. -/
def smallDir : DeNode :=
  changeProp (changeProp (deltaCreateNodeNoParent (cstr "d") .dir .modify) ⟨cstr "k", some [49]⟩) ⟨cstr "s", none⟩

def smallStream : List Output :=
  [.magic 3, .revision ⟨1, none, none, some (cstr "first"), some ∅⟩ 1,
    .node (presentRecord smallBaton smallFile (some (nodeBody smallBaton smallFile (some smallText)))),
    .node (presentRecord smallBaton smallDir (some (nodeBody smallBaton smallDir none))),
    .node (deleteRecord smallBaton (cstr "a"))]

theorem smallStream_emitted : ∀ o ∈ smallStream, Emitted .plain o := by
  have plain : ∀ (st : DeltaState .plain) (node : DeNode), node.copyfrom = none → ¬ Unchanged smallBaton st node := by
    rintro st node none ⟨copied, -⟩
    simp [copyInfo, none] at copied
  have file : WrittenFor .plain smallBaton (fun _ => True)
      (presentRecord smallBaton smallFile (some (nodeBody smallBaton smallFile (some smallText)))) :=
    ⟨smallFile, { emptyDelta with files := ⟨fun _ => some smallText, 1⟩ }, _, trivial,
      .text (by decide) (plain _ _ rfl) rfl rfl⟩
  have dir : WrittenFor .plain smallBaton (fun _ => True)
      (presentRecord smallBaton smallDir (some (nodeBody smallBaton smallDir none))) :=
    ⟨smallDir, emptyDelta, _, trivial, .props (by decide) (plain _ _ rfl) fun content => absurd content (by decide)⟩
  simp only [smallStream, List.forall_mem_cons, List.not_mem_nil, false_imp_iff, implies_true, and_true]
  exact ⟨trivial, trivial, ⟨smallBaton, file⟩, ⟨smallBaton, dir⟩, smallBaton,
    deltaCreateNodeNoParent (cstr "a") .none .delete, emptyDelta, emptyDelta, trivial, .deleted rfl⟩

theorem framing_small :
    readStream sectionNames (smallStream.flatMap printOutput) = some (smallStream.map outputFrame) ∧
      ∀ o ∈ smallStream, SumStated (outputFrame o) := by
  refine (framing_iff smallStream_emitted ?_).mpr ?_
  · simp only [smallStream, List.forall_mem_cons, List.not_mem_nil, false_imp_iff, implies_true, and_true]
    refine ⟨trivial, trivial, ⟨by decide, ?_⟩, ⟨by decide, ?_⟩, by decide, ?_⟩ <;> exact fun source revision copied => by cases copied
  · simp only [smallStream, List.forall_mem_cons, List.not_mem_nil, false_imp_iff, implies_true, and_true]
    exact ⟨trivial, show (revisionSection _).length < 2147483648 by decide, trivial, trivial, trivial⟩

theorem length_le_revisionSection {log : LogRevision} {message : CString} (found : log.message = some message) :
    message.length ≤ (revisionSection log).length := by
  have props : ∃ others, revisionProps log = (cstr "svn:log", message) :: others := by
    simp [revisionProps, found]
  obtain ⟨others, props⟩ := props
  rw [revisionSection, props, if_neg (List.cons_ne_nil _ _), length_propsSection]
  simp only [List.map_cons, List.sum_cons, propertyStrlen, propertyDump, List.length_append, CString.length_bytes]
  omega

/-- The length of this message is not an `int`. -/
def longLog : LogRevision := ⟨1, none, none, some (List.replicate 2147483648 slash), some ∅⟩

theorem framing_long_message :
    Emitted .plain (.revision longLog 1) ∧ OneLine (.revision longLog 1) ∧
      readStream sectionNames ([Output.revision longLog 1].flatMap printOutput) ≠
        some ([Output.revision longLog 1].map outputFrame) := by
  refine ⟨trivial, trivial, fun read => ?_⟩
  have fits : (revisionSection longLog).length < 2147483648 :=
    fits_of_sized (readStream_sized read _ (List.mem_map_of_mem (List.mem_singleton_self _)))
  have longer := @length_le_revisionSection longLog _ rfl
  rw [List.length_replicate] at longer
  omega

/-! ## Whole dumps -/

section Dump

variable {sys : Platform} {server : Server} {session : Session}

theorem runEdit_written {baton : DeBaton} {edit : Edit} {st st' : DeltaState sys}
    (ran : runEdit baton edit st = .ok st') : ∀ record ∈ st'.out, WrittenFor sys baton (fun _ => True) record := by
  obtain ⟨root, before, after, start, dumps, later, out, all⟩ :=
    @runEdit_records sys baton (fun _ => True) edit st st' (fun _ _ => trivial) (fun _ _ => trivial) ran
  obtain ⟨⟨first, out', all'⟩, -⟩ := @deltaDumpNode_appends sys baton (fun _ => True) _ _ _ _ _ trivial dumps
  rw [out, out', start, List.nil_append]
  intro record member
  exact (List.mem_append.mp member).elim (all' record) (all record)

/-- Everything that was printed so far can be printed. -/
def AllEmitted (st : DumpState sys) : Prop := ∀ o ∈ st.out, Emitted sys o

theorem AllEmitted.append {st st' : DumpState sys} (before : AllEmitted st) {more : List Output}
    (out : st'.out = st.out ++ more) (all : ∀ o ∈ more, Emitted sys o) : AllEmitted st' := by
  intro o member
  rw [out] at member
  exact (List.mem_append.mp member).elim (before o) (all o)

theorem AllEmitted.setupPrefix {st : DumpState sys} (before : AllEmitted st) : AllEmitted (setupPrefix st) := by
  unfold Rsvndump.setupPrefix dumpCreateUserPrefix
  split
  · split
    · exact before
    · refine before.append rfl fun o member => ?_
      obtain ⟨path, -, rfl⟩ := List.mem_map.mp member
      trivial
  · exact before

theorem AllEmitted.padRevisions {st : DumpState sys} (before : AllEmitted st) (n : Nat) :
    AllEmitted (padRevisions n st) := by
  induction n generalizing st with
  | zero => exact before
  | succ n ih =>
    have padded : AllEmitted { st with
        out := st.out ++ [.padding st.localRev]
        delta := { st.delta with repo := st.delta.repo.commit st.localRev } } :=
      before.append rfl (by simp [Emitted])
    exact @ih (padRevision st) padded.setupPrefix

theorem AllEmitted.opened {st opened : DumpState sys} {log : LogRevision} (before : AllEmitted st)
    (opens : openRevision server st = .ok (log, opened)) : AllEmitted opened := by
  obtain ⟨next, fetched, opens⟩ := bind_eq_ok.mp opens
  obtain ⟨entry, -, opens⟩ := bind_eq_ok.mp opens
  cases opens
  have same : AllEmitted next := by
    unfold nextLog at fetched
    split at fetched
    · cases fetched
      exact before
    · obtain ⟨new, -, fetched⟩ := bind_eq_ok.mp fetched
      cases fetched
      exact before
  have padded : AllEmitted (padTo log.revision next) := by
    unfold padTo
    split
    · exact same.padRevisions _
    · exact same
  unfold printHeader
  split
  · exact padded
  · exact AllEmitted.setupPrefix (padded.append rfl (by simp [Emitted]))

theorem AllEmitted.step {st st' : DumpState sys} (before : AllEmitted st)
    (ran : dumpStep server session st = .ok st') : AllEmitted st' := by
  obtain ⟨⟨log, opened⟩, opens, ran⟩ := bind_eq_ok.mp ran
  obtain ⟨edited, edits, ran⟩ := bind_eq_ok.mp ran
  obtain ⟨delta, edit, edits⟩ := bind_eq_ok.mp edits
  cases edits
  obtain ⟨committed, commits, ran⟩ := bind_eq_ok.mp ran
  obtain ⟨store, -, ran⟩ := bind_eq_ok.mp ran
  cases ran
  have out : committed.out = opened.out ++ delta.out.map .node := by
    unfold commitRevision at commits
    split at commits
    · obtain ⟨repo, -, commits⟩ := bind_eq_ok.mp commits
      cases commits
      rfl
    · cases commits
      rfl
  refine (before.opened opens).append out fun o member => ?_
  obtain ⟨record, listed, rfl⟩ := List.mem_map.mp member
  exact ⟨_, runEdit_written edit record listed⟩

theorem fileHeader_emitted (opts : DumpOptions) (mid : Bool) :
    ∀ o ∈ fileHeader server session opts mid, Emitted sys o := by
  intro o member
  unfold fileHeader at member
  split at member
  · split at member
    · rcases List.mem_cons.mp member with rfl | member
      · trivial
      · rw [List.mem_singleton.mp member]
        trivial
    · rw [List.mem_singleton.mp member]
      trivial
  · cases member

theorem AllEmitted.loop {fuel : Nat} {st final : DumpState sys} (before : AllEmitted st)
    (looped : dumpLoop server session fuel st = some (.ok final)) : AllEmitted final := by
  induction fuel generalizing st with
  | zero => cases looped
  | succ fuel ih =>
    rw [dumpLoop] at looped
    split at looped
    · cases looped
    · next next' stepped =>
      split at looped
      · exact ih (before.step stepped) looped
      · cases looped
        exact before.step stepped

/-- Every output of a dump comes from a node or is one of the headers. -/
theorem dump_emitted {opts : DumpOptions} {final : DumpState sys}
    (ran : dump server session opts = some (.ok final)) : ∀ o ∈ final.out, Emitted sys o := by
  unfold dump at ran
  split at ran
  · cases ran
  · next start ready =>
    refine AllEmitted.loop ?_ ran
    obtain ⟨range, -, ready⟩ := bind_eq_ok.mp ready
    obtain ⟨-, -, ready⟩ := bind_eq_ok.mp ready
    split at ready
    · obtain ⟨prepared, -, ready⟩ := bind_eq_ok.mp ready
      obtain ⟨base, -, ready⟩ := bind_eq_ok.mp ready
      obtain ⟨last, -, ready⟩ := bind_eq_ok.mp ready
      cases ready
      exact fileHeader_emitted _ _
    · cases ready
      exact fileHeader_emitted _ _

end Dump

end Rsvndump
