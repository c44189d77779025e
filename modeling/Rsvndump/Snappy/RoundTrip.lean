import Rsvndump.Platform
import Rsvndump.Snappy.Decoded
import Rsvndump.Snappy.Fragments

/-! Texts compressed and decompressed again.

The length of the input is counted in an `int`, so that a text of 2^31 bytes or more is
compressed only in part, or not at all, without an error.
-/

set_option autoImplicit false

namespace Rsvndump.Snappy

open Library

variable {cap : Nat}

/-! ## Compressed streams -/

/-- The length the compressor goes by, from the `int` that counts it. -/
def countedLength (input : Bytes) : Nat := ((input.length : Int).bmod 4294967296).toNat

theorem countedLength_le (input : Bytes) : countedLength input ≤ input.length := by
  have small := Int.bmod_le (x := (input.length : Int)) (m := 4294967296) (Nat.zero_lt_succ 4294967295)
  unfold countedLength
  by_cases half : (input.length : Int) < 2147483648
  · rw [Int.bmod_eq_of_le (by omega) (by omega), Int.toNat_natCast]
  · omega

theorem countedLength_eq {input : Bytes} (small : input.length < 2147483648) : countedLength input = input.length := by
  unfold countedLength
  rw [Int.bmod_eq_of_le (by omega) (by omega), Int.toNat_natCast]

theorem countedLength_lt (input : Bytes) : countedLength input < 2147483648 := by
  have small := Int.bmod_lt (x := (input.length : Int)) (m := 4294967296) (Nat.zero_lt_succ 4294967295)
  unfold countedLength
  omega

/-- The fragments are written one behind the other, each in seven bytes for six. -/
theorem compressLoop_spec {fuel : Nat} {rest front : Bytes} {left : Int} {dest : Dest cap} (few : left ≤ rest.length)
    (written : Written dest front) (room : 6 * front.length + 7 * left.toNat + 120 ≤ 6 * cap) (enough : left.toNat < fuel) :
    ∃ dest' bytes elements, compressLoop fuel rest left dest = .ok (0, dest') ∧ Written dest' (front ++ bytes) ∧
      Spells bytes elements ∧ expand [] elements = some (rest.take left.toNat) ∧ 6 * bytes.length ≤ 7 * left.toNat + 5 := by
  induction fuel generalizing rest front left dest with
  | zero => omega
  | succ fuel ih =>
    rw [compressLoop]
    by_cases more : 0 < left
    · have number : (min left 32768).toNat ≤ 32768 ∧ (min left 32768).toNat ≤ rest.length ∧ 0 < (min left 32768).toNat ∧
          (min left 32768).toNat ≤ left.toNat := by omega
      -- only the last block may be too short to save the bytes that its tags cost
      have again : 6 ≤ (min left 32768).toNat ∨ left.toNat = (min left 32768).toNat := by omega
      generalize (min left 32768).toNat = numToRead at *
      obtain ⟨block, inside, positive, part⟩ := number
      have sized : (rest.take numToRead).length = numToRead := by
        rw [List.length_take]
        omega
      obtain ⟨bits, least, most, table⟩ := getHashTable_spec numToRead
      obtain ⟨dest1, spent, compressed, encoded, saved, whole⟩ := compressFragment_spec (Buffer.ofBytes (rest.take numToRead))
        (by omega) most written (by rw [sized]; omega)
      obtain ⟨bytes, elements, written1, length, spells, made⟩ := encoded
      rw [sized] at saved whole
      have cost : 6 * bytes.length ≤ 7 * numToRead ∨ left.toNat = numToRead := by omega
      have remaining : left - numToRead ≤ (rest.drop numToRead).length := by
        rw [List.length_drop]
        omega
      obtain ⟨dest', bytes', elements', looped, written', spells', made', saved'⟩ := ih remaining written1
        (by rw [List.length_append]; omega) (by omega)
      have nonempty : ¬rest.length = 0 := by omega
      have complete : ¬rest.length < numToRead := by omega
      rw [if_pos more, if_neg nonempty]
      dsimp only
      rw [if_neg complete, table, ok_bind, compressed, ok_bind, looped]
      refine ⟨dest', bytes ++ bytes', elements ++ elements', rfl, by rwa [← List.append_assoc], spells.append spells', ?_, ?_⟩
      · rw [expand_blocks made made', Buffer.ofBytes]
        dsimp only
        rw [List.take_of_length_le (Nat.le_refl _), show (left - numToRead).toNat = left.toNat - numToRead by omega,
          ← List.take_add, Nat.add_sub_cancel' part]
      · rw [List.length_append]
        omega
    · rw [if_neg more]
      refine ⟨dest, [], [], rfl, by rwa [List.append_nil], spells_nil, ?_, Nat.zero_le _⟩
      rw [show left.toNat = 0 by omega]
      rfl

/-- What `snappy_compress` writes: the length of the input in 32 bits, and elements for the part that is counted. -/
theorem snappyCompress_spec (input : Bytes) (compressed : Buffer cap) (room : snappyMaxCompressedLength input.length ≤ cap) :
    ∃ dest bytes elements, snappyCompress input compressed = .ok (0, dest) ∧
      Written dest (varint (input.length % 4294967296) ++ bytes) ∧ Spells bytes elements ∧
      expand [] elements = some (input.take (countedLength input)) ∧ dest.op ≤ snappyMaxCompressedLength (countedLength input) := by
  have counted := countedLength_le input
  unfold countedLength at counted ⊢
  have bound : input.length % 4294967296 < 4294967296 := Nat.mod_lt _ (by decide)
  have number : varintEncode32 (((input.length : Int).bmod 4294967296) % 4294967296).toNat = varint (input.length % 4294967296) := by
    rw [show (4294967296 : Int) = (4294967296 : Nat) from rfl, Int.bmod_emod, ← Int.natCast_emod, Int.toNat_natCast,
      varintEncode32_eq bound]
  have short : (varint (input.length % 4294967296)).length ≤ 5 := length_varint_le (Nat.lt_of_lt_of_le bound (by decide))
  rw [snappyMaxCompressedLength] at room
  obtain ⟨mem, stored, starts⟩ : ∃ mem, store compressed 0 (varint (input.length % 4294967296)) = .ok mem ∧ [] ++ _ <+: mem.bytes :=
    store_behind (varint (input.length % 4294967296)) List.nil_prefix (by rw [List.length_nil]; omega)
  rw [List.nil_append] at starts
  have front : Written ⟨mem, (varint (input.length % 4294967296)).length⟩ (varint (input.length % 4294967296)) := ⟨starts, rfl⟩
  have few : (input.length : Int).bmod 4294967296 ≤ input.length := by omega
  have enough : ((input.length : Int).bmod 4294967296).toNat < input.length + 1 := by omega
  obtain ⟨dest, bytes, elements, looped, written, spells, made, saved⟩ := compressLoop_spec few front (by omega) enough
  rw [snappyCompress, number, stored, ok_bind, looped]
  refine ⟨dest, bytes, elements, rfl, written, spells, made, ?_⟩
  rw [written.ends, List.length_append, snappyMaxCompressedLength]
  omega

theorem textOf_spelled {v : Nat} {bytes text : Bytes} {elements : List (Element UInt8)} (fits : v < 4294967296)
    (spells : Spells bytes elements) (made : expand [] elements = some text) :
    textOf (varint v ++ bytes) = if text.length = v then some text else none := by
  have read : readElements bytes = some elements := by
    have whole := spells []
    rwa [List.append_nil, readElements_nil, Option.map_some, List.append_nil] at whole
  rw [textOf, varintParse32WithLimit_varint fits]
  simp only [Option.bind_eq_bind, Option.bind_some, read, made]
  rfl

/-- What is read back of a text: the part that is counted, if it has the length that is written in front. -/
def countedText (input : Bytes) : Option Bytes :=
  if countedLength input = input.length % 4294967296 then some (input.take (countedLength input)) else none

theorem textOf_compressed {input bytes : Bytes} {elements : List (Element UInt8)} (spells : Spells bytes elements)
    (made : expand [] elements = some (input.take (countedLength input))) :
    textOf (varint (input.length % 4294967296) ++ bytes) = countedText input := by
  have sized : (input.take (countedLength input)).length = countedLength input := by
    rw [List.length_take, Nat.min_eq_left (countedLength_le input)]
  rw [textOf_spelled (Nat.mod_lt _ (by decide)) spells made, sized]
  rfl

/-- The whole text is read back exactly when an `int` can count it. -/
theorem countedText_eq_some_iff {input : Bytes} : countedText input = some input ↔ input.length < 2147483648 := by
  have sized : (input.take (countedLength input)).length = countedLength input := by
    rw [List.length_take, Nat.min_eq_left (countedLength_le input)]
  constructor
  · intro read
    obtain ⟨-, whole⟩ := Option.ite_none_right_eq_some.mp read
    rw [Option.some.injEq] at whole
    rw [whole] at sized
    rw [sized]
    exact countedLength_lt input
  · intro small
    rw [countedText, countedLength_eq small, Nat.mod_eq_of_lt (Nat.lt_trans small (by decide)), if_pos rfl, List.take_length]

/-- Up to 2^32 bytes, nothing of a longer text is counted, and nothing is read back. -/
theorem countedText_negative {input : Bytes} (long : 2147483648 ≤ input.length) (counted : input.length < 4294967296) :
    countedText input = none := by
  have negative : (input.length : Int).bmod 4294967296 = input.length - 4294967296 := by
    have same := Int.sub_bmod_right (input.length : Int) 4294967296
    rw [← same]
    exact Int.bmod_eq_of_le (by omega) (by omega)
  have nothing : countedLength input = 0 := by
    unfold countedLength
    omega
  rw [countedText, nothing, Nat.mod_eq_of_lt counted, if_neg (by omega)]

/-! ## The decompressor on any stream -/

/-- The loop of the decompressor reads the number at the front, cut at 32 bits. -/
theorem readUncompressedLength_eq {n : Nat} (compressed : Buffer n) (scratch : Buffer 5) :
    ∃ d, readUncompressedLength compressed (initSnappyDecompressor ⟨0, n⟩ scratch) =
      .ok (d, (readVarint 5 compressed.bytes).map fun read => read.1 % 4294967296) := by
  obtain ⟨reader, looped, -, -⟩ := lengthLoop_front compressed
  have unread : (initSnappyDecompressor ⟨0, n⟩ scratch).area = .null := rfl
  rw [readUncompressedLength, check_holds unread, ok_bind]
  simp only [initSnappyDecompressor, looped, ok_bind]
  exact ⟨_, rfl⟩

/-- Where the length is accepted before the buffer is allocated, the decompressor finds the same. It also accepts what
is refused there for more than 32 bits, and goes by the low ones. -/
theorem uncompressedLength_agrees {n : Nat} (compressed : Buffer n) (scratch : Buffer 5) :
    ∃ d result, readUncompressedLength compressed (initSnappyDecompressor ⟨0, n⟩ scratch) = .ok (d, result) ∧
      (∀ len, snappyUncompressedLength compressed.bytes = some len → result = some len) ∧
      (snappyUncompressedLength compressed.bytes = none → result = none ∨
        ∃ number rest, readVarint 5 compressed.bytes = some (number, rest) ∧ 4294967296 ≤ number ∧
          result = some (number % 4294967296)) := by
  obtain ⟨d, found⟩ := readUncompressedLength_eq compressed scratch
  refine ⟨d, _, found, ?_⟩
  rw [snappyUncompressedLength, varintParse32WithLimit_eq]
  cases readVarint 5 compressed.bytes with
  | none => exact ⟨fun len accepted => (by cases accepted), fun _ => .inl rfl⟩
  | some read =>
    rw [Option.bind_some, Option.map_some]
    by_cases fits : read.1 < 4294967296
    · rw [if_pos fits, Option.map_some, Nat.mod_eq_of_lt fits]
      exact ⟨fun len accepted => accepted, fun refused => by cases refused⟩
    · rw [if_neg fits]
      exact ⟨fun len accepted => (by cases accepted), fun _ => .inr ⟨read.1, read.2, rfl, Nat.not_lt.mp fits, rfl⟩⟩

/-- Into a buffer of the accepted length, the text is written exactly when the stream has one of that length. -/
theorem snappyUncompress_spec {n size : Nat} (compressed : Buffer n) (counted : n < 4294967296)
    (declared : snappyUncompressedLength compressed.bytes = some size) (scratch : Buffer 5) (uncompressed : Buffer size) :
    ∃ result buffer, snappyUncompress compressed scratch uncompressed = .ok (result, buffer) ∧
      ∀ text, textOf compressed.bytes = some text ↔ result = 0 ∧ buffer.bytes = text := by
  obtain ⟨read, parsed, rfl⟩ := Option.map_eq_some_iff.mp declared
  obtain ⟨value, found⟩ : read.1 < 4294967296 ∧ readVarint 5 compressed.bytes = some read := by
    rw [varintParse32WithLimit_eq] at parsed
    obtain ⟨read', found, kept⟩ := Option.bind_eq_some_iff.mp parsed
    obtain ⟨fits, same⟩ := Option.ite_none_right_eq_some.mp kept
    rw [Option.some.injEq] at same
    exact same ▸ ⟨fits, found⟩
  have exact : read.1 % 4294967296 = read.1 := Nat.mod_eq_of_lt value
  obtain ⟨result, w, done, what⟩ := internalUncompress_spec counted found (Nat.le_of_eq exact) scratch uncompressed
  have text_iff : ∀ text, textOf compressed.bytes = some text ↔ restOfText [] read.2 = some text ∧ text.length = read.1 := by
    intro text
    rw [textOf, parsed, restOfText]
    simp only [Option.bind_eq_bind, Option.bind_some]
    rw [← Option.bind_assoc, Option.bind_eq_some_iff]
    constructor
    · rintro ⟨text', made, kept⟩
      obtain ⟨same, rfl⟩ : text'.length = read.1 ∧ text' = text := by simpa using kept
      exact ⟨made, same⟩
    · rintro ⟨made, same⟩
      exact ⟨text, made, by simp [same]⟩
  refine ⟨result, w.mem, by rw [snappyUncompress, done]; rfl, fun text => ?_⟩
  rw [text_iff]
  rw [exact] at what
  rcases what with ⟨rfl, text', made, sized, starts⟩ | ⟨rfl, none⟩
  · have filled : w.mem.bytes = text' := (List.IsPrefix.eq_of_length starts (by rw [sized, w.mem.sized])).symm
    rw [made, filled]
    constructor
    · rintro ⟨same, -⟩
      exact ⟨rfl, Option.some.inj same⟩
    · rintro ⟨-, rfl⟩
      exact ⟨rfl, sized⟩
  · constructor
    · rintro ⟨made, same⟩
      exact absurd same (none text made)
    · rintro ⟨failed, -⟩
      exact absurd failed (by decide)

/-! ## The stores -/

section Stores

-- what freshly allocated memory holds
variable (fresh : (size : Nat) → Buffer size)

/-- The output behind which `*compressed_length` points, when there is no error. -/
def output : Except SnappyError (Int × Dest cap) → Option Bytes
  | .ok (result, dest) => if result = 0 then some (dest.mem.bytes.take dest.op) else none
  | .error _ => none

theorem output_ok (dest : Dest cap) : output (.ok (0, dest)) = some (dest.mem.bytes.take dest.op) := by
  rw [output, if_pos rfl]

/-- What the stores keep of a text, which they compress into memory of the bound. -/
def compressedText (data : Bytes) : Option Bytes :=
  output (snappyCompress data (fresh (snappyMaxCompressedLength data.length)))

/-- What the stores make of it, in memory of the length at its front. -/
def uncompressedText (data : Bytes) : Option Bytes := do
  let size ← snappyUncompressedLength data
  let (result, buffer) ← (snappyUncompress (Buffer.ofBytes data) (fresh 5) (fresh size)).toOption
  if result = 0 then some buffer.bytes else none

theorem uncompressedText_eq {data : Bytes} (counted : data.length < 4294967296) : uncompressedText fresh data = textOf data := by
  cases declared : snappyUncompressedLength data with
  | none =>
    have refused : varintParse32WithLimit data = none := Option.map_eq_none_iff.mp declared
    rw [uncompressedText, declared, textOf, refused]
    rfl
  | some size =>
    obtain ⟨result, buffer, done, texts⟩ := snappyUncompress_spec (Buffer.ofBytes data) counted declared (fresh 5) (fresh size)
    change ∀ text, textOf data = some text ↔ _ at texts
    rw [uncompressedText, declared]
    simp only [Option.bind_eq_bind, Option.bind_some, done, Except.toOption]
    by_cases succeeded : result = 0
    · rw [if_pos succeeded]
      exact ((texts buffer.bytes).mpr ⟨succeeded, rfl⟩).symm
    · rw [if_neg succeeded]
      exact (Option.eq_none_iff_forall_ne_some.mpr fun text made => succeeded ((texts text).mp made).1).symm

/-- No error is seen, whatever is kept of a text. -/
theorem compressedText_spec (data : Bytes) :
    ∃ kept, compressedText fresh data = some kept ∧ uncompressedText fresh kept = countedText data := by
  obtain ⟨dest, bytes, elements, done, written, spells, made, bound⟩ := snappyCompress_spec data
    (fresh (snappyMaxCompressedLength data.length)) (Nat.le_refl _)
  have kept : dest.mem.bytes.take dest.op = varint (data.length % 4294967296) ++ bytes := by
    rw [written.ends]
    exact (List.prefix_iff_eq_take.mp written.starts).symm
  have counted : (dest.mem.bytes.take dest.op).length < 4294967296 := by
    have small := countedLength_lt data
    have size : snappyMaxCompressedLength (countedLength data) = 32 + countedLength data + countedLength data / 6 := rfl
    rw [List.length_take]
    omega
  refine ⟨dest.mem.bytes.take dest.op, (congrArg output done).trans (output_ok dest), ?_⟩
  rw [uncompressedText_eq fresh counted, kept]
  exact textOf_compressed spells made

/-- The compressor and the decompressor of the program as the stores use them. -/
def snappyPlatform (md5 : Bytes → Digest) (svndiff : Bytes → Bytes → Bytes) (stray : CString → Nat → UInt8) : Platform where
  compress data := (compressedText fresh data).getD []
  uncompress := uncompressedText fresh
  uncompress_compress data small := by
    obtain ⟨kept, done, read⟩ := compressedText_spec fresh data
    rw [done, Option.getD_some, read]
    exact countedText_eq_some_iff.mpr small
  md5 := md5
  svndiff := svndiff
  stray := stray

theorem snappyPlatform_reads (md5 : Bytes → Digest) (svndiff : Bytes → Bytes → Bytes) (stray : CString → Nat → UInt8)
    (data : Bytes) : (snappyPlatform fresh md5 svndiff stray).uncompress ((snappyPlatform fresh md5 svndiff stray).compress data) =
      countedText data := by
  obtain ⟨kept, done, read⟩ := compressedText_spec fresh data
  simp only [snappyPlatform, done, Option.getD_some, read]

end Stores

/-! ## Main results -/

/-- The compressor does not leave its memory and fails no check, whatever the input and whatever its output memory holds,
and writes no more than the bound its callers allocate. -/
theorem snappyCompress_safe (input : Bytes) (compressed : Buffer cap) (room : snappyMaxCompressedLength input.length ≤ cap) :
    ∃ dest, snappyCompress input compressed = .ok (0, dest) ∧ dest.op ≤ snappyMaxCompressedLength input.length := by
  obtain ⟨dest, bytes, elements, done, -, -, -, bound⟩ := snappyCompress_spec input compressed room
  have counted := countedLength_le input
  refine ⟨dest, done, Nat.le_trans bound ?_⟩
  unfold snappyMaxCompressedLength
  omega

/-- A literal of one byte and a copy of the other 59, which runs into itself. -/
theorem snappyCompress_safe_copy :
    ∃ dest, snappyCompress (List.replicate 60 7) (Buffer.ofBytes (List.replicate 102 0)) = .ok (0, dest) ∧
      dest.op ≤ snappyMaxCompressedLength 60 ∧ dest.mem.bytes.take dest.op = [60, 0, 7, 234, 1, 0] := by
  obtain ⟨dest, done, bound⟩ := snappyCompress_safe (List.replicate 60 7) (Buffer.ofBytes (List.replicate 102 0)) (by decide)
  have written : ((snappyCompress (List.replicate 60 7) (Buffer.ofBytes (List.replicate 102 0))).toOption.map fun result =>
      result.2.mem.bytes.take result.2.op) = some [60, 0, 7, 234, 1, 0] := by decide +kernel
  rw [done] at written
  exact ⟨dest, done, by simpa using bound, Option.some.inj written⟩

/-- For any stream and a buffer of at least the length at its front, the decompressor does not leave its memory and fails
no check; it succeeds exactly when the stream has a text of that length, and the buffer then starts with the text. -/
theorem snappyUncompress_refines {n size : Nat} (compressed : Buffer n) (counted : n < 4294967296) (scratch : Buffer 5)
    (uncompressed : Buffer size) (room : ∀ read, readVarint 5 compressed.bytes = some read → read.1 % 4294967296 ≤ size) :
    ∃ result buffer, snappyUncompress compressed scratch uncompressed = .ok (result, buffer) ∧
      ((result = 0 ∧ ∃ number rest text, readVarint 5 compressed.bytes = some (number, rest) ∧ restOfText [] rest = some text ∧
          text.length = number % 4294967296 ∧ text <+: buffer.bytes) ∨
        result = eio ∧ ∀ number rest text, readVarint 5 compressed.bytes = some (number, rest) → restOfText [] rest = some text →
          text.length ≠ number % 4294967296) := by
  rw [snappyUncompress]
  cases declared : readVarint 5 compressed.bytes with
  | none =>
    obtain ⟨d, unread⟩ := readUncompressedLength_eq compressed scratch
    rw [declared, Option.map_none] at unread
    rw [internalUncompress, unread]
    exact ⟨eio, uncompressed, rfl, .inr ⟨rfl, fun number rest text found => by cases found⟩⟩
  | some read =>
    obtain ⟨result, w, done, what⟩ := internalUncompress_spec counted declared (room read declared) scratch uncompressed
    refine ⟨result, w.mem, by rw [done]; rfl, ?_⟩
    rcases what with ⟨succeeded, text, made, sized, starts⟩ | ⟨failed, none⟩
    · exact .inl ⟨succeeded, read.1, read.2, text, rfl, made, sized, starts⟩
    · refine .inr ⟨failed, fun number rest text found made => ?_⟩
      cases found
      exact none text made

/-- A length of 5, a literal of one byte and a copy of four that runs into itself. -/
theorem snappyUncompress_refines_short :
    ∃ result buffer, snappyUncompress (Buffer.ofBytes [5, 0, 97, 1, 1]) (Buffer.ofBytes [0, 0, 0, 0, 0])
        (Buffer.ofBytes [0, 0, 0, 0, 0, 0]) = .ok (result, buffer) ∧
      ((result = 0 ∧ ∃ number rest text, readVarint 5 [5, 0, 97, 1, 1] = some (number, rest) ∧ restOfText [] rest = some text ∧
          text.length = number % 4294967296 ∧ text <+: buffer.bytes) ∨
        result = eio ∧ ∀ number rest text, readVarint 5 [5, 0, 97, 1, 1] = some (number, rest) → restOfText [] rest = some text →
          text.length ≠ number % 4294967296) :=
  snappyUncompress_refines (Buffer.ofBytes [5, 0, 97, 1, 1]) (by decide) (Buffer.ofBytes [0, 0, 0, 0, 0])
    (Buffer.ofBytes [0, 0, 0, 0, 0, 0]) fun read found => by cases found; decide

/-- What is kept of a text is read back as the text exactly when the text has fewer than 2^31 bytes, though compressing it
never reports an error. -/
theorem round_trip_iff (fresh : (size : Nat) → Buffer size) (data : Bytes) :
    ∃ kept, compressedText fresh data = some kept ∧ (uncompressedText fresh kept = some data ↔ data.length < 2147483648) := by
  obtain ⟨kept, done, read⟩ := compressedText_spec fresh data
  refine ⟨kept, done, ?_⟩
  rw [read]
  exact countedText_eq_some_iff

end Rsvndump.Snappy
