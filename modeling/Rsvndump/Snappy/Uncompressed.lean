import Rsvndump.Snappy.Uncompress

/-! What the decompressor makes of a stream.

What is buffered and what the reader has left are together the part of the stream that
has not been read. The writer holds the text of the elements before it, and refuses
an element whose text does not exist or does not fit the expected length.
-/

set_option autoImplicit false

namespace Rsvndump.Snappy

open Library

variable {n size : Nat}

/-! ## The writer -/

/-- A text has been written, and the expected length is `limit`. -/
structure Holds (limit : Nat) (w : Writer size) (out : Bytes) : Prop where
  starts : out <+: w.mem.bytes
  ends : w.op = out.length
  limited : w.opLimit = limit
  below : out.length ≤ limit

/-- What an operation of the writer does: it writes the next text, or there is none that fits. -/
def Wrote (limit : Nat) (next : Option Bytes) : Writer size × Bool → Prop
  | (w, true) => ∃ out, next = some out ∧ Holds limit w out
  | (_, false) => ∀ out, next = some out → limit < out.length

section Writer

variable {limit : Nat} (allocated : limit ≤ size) (counted : limit < 4294967296) {w : Writer size} {out : Bytes}
  (holds : Holds limit w out)

include holds

include counted in
theorem toU32_spaceLeft : toU32 (spaceLeft w) = limit - out.length := by
  have below := holds.below
  rw [spaceLeft, holds.limited, holds.ends, toU32, show (4294967296 : Int) = (4294967296 : Nat) from rfl, Int.bmod_emod]
  omega

theorem spaceLeft_least (most : 16 ≤ spaceLeft w) : out.length + 16 ≤ limit := by
  have below := holds.below
  rw [spaceLeft, holds.limited, holds.ends] at most
  have small := Int.bmod_le (x := (limit : Int) - out.length) (m := 4294967296) (by decide)
  by_cases half : (limit : Int) - out.length < 2147483648
  · rw [Int.bmod_eq_of_le (by omega) (by omega)] at most
    omega
  · omega

include allocated

/-- Text that is stored behind the text. -/
theorem Holds.store {data piece : Bytes} (written : piece <+: data) (room : out.length + data.length ≤ limit) :
    ∃ mem, Snappy.store w.mem w.op data = .ok mem ∧ Holds limit { w with mem, op := w.op + piece.length } (out ++ piece) := by
  have short := written.length_le
  obtain ⟨mem, stored, starts⟩ := store_behind data holds.starts (by omega)
  rw [holds.ends]
  refine ⟨mem, stored, ?_, by rw [List.length_append], holds.limited, by rw [List.length_append]; omega⟩
  exact List.IsPrefix.trans ((List.prefix_append_right_inj out).mpr written) starts

/-- The fast path has written the text, or nothing is done. -/
theorem writerTryFastAppend_spec {source : Nat → Nat → Except SnappyError Bytes} {ip available : Nat} {data : Bytes} (len : Nat)
    (long : available ≤ data.length) (loaded : ∀ start count, start + count ≤ available →
      source (ip + start) count = .ok ((data.drop start).take count)) :
    writerTryFastAppend w source ip available len = .ok (w, false) ∨
    ∃ w', writerTryFastAppend w source ip available len = .ok (w', true) ∧ len ≤ 16 ∧ len ≤ available ∧
      Holds limit w' (out ++ data.take len) := by
  rw [writerTryFastAppend]
  split
  · next fast =>
    obtain ⟨short, enough, space⟩ := fast
    have room := spaceLeft_least holds space
    have first := loaded 0 8 (by omega)
    have second := loaded 8 8 (by omega)
    rw [Nat.add_zero, List.drop_zero] at first
    have sized : (data.take 8).length = 8 := by
      rw [List.length_take]
      omega
    obtain ⟨mem1, stored1, starts1⟩ := store_behind (data.take 8) holds.starts (by omega)
    obtain ⟨mem2, stored2, starts2⟩ := store_behind ((data.drop 8).take 8) starts1
      (by simp only [List.length_append, List.length_take, List.length_drop]; omega)
    rw [List.length_append, sized] at stored2
    rw [List.append_assoc, ← List.take_add] at starts2
    rw [first, ok_bind, holds.ends, stored1, ok_bind, second, ok_bind, stored2, ok_bind]
    have taken : (data.take len).length = len := by
      rw [List.length_take]
      omega
    refine .inr ⟨_, rfl, short, by omega, ?_, ?_, holds.limited, ?_⟩
    · refine List.IsPrefix.trans ((List.prefix_append_right_inj out).mpr ?_) starts2
      exact List.take_prefix_take_left short
    · rw [List.length_append, taken]
    · rw [List.length_append, taken]
      omega
  · exact .inl rfl

include counted

theorem writerAppend_spec {source : Nat → Nat → Except SnappyError Bytes} {ip len : Nat} {piece : Bytes}
    (loaded : source ip len = .ok piece) (sized : piece.length = len) :
    ∃ result, writerAppend w source ip len = .ok result ∧ Wrote limit (some (out ++ piece)) result := by
  rw [writerAppend, toU32_spaceLeft counted holds]
  by_cases fits : limit - out.length < len
  · rw [if_pos fits]
    refine ⟨_, rfl, fun text made => ?_⟩
    rw [← Option.some.inj made, List.length_append]
    have below := holds.below
    omega
  · have below := holds.below
    obtain ⟨mem, stored, holds'⟩ := holds.store allocated (List.prefix_refl piece) (by omega)
    rw [if_neg fits, loaded, ok_bind, stored, ok_bind]
    rw [sized] at holds'
    exact ⟨_, rfl, out ++ piece, rfl, holds'⟩

theorem writerAppendFromSelf_spec {offset len : Nat} (near : offset < 4294967296) (some : 0 < len) (short : len ≤ 64) :
    ∃ result, writerAppendFromSelf w offset len = .ok result ∧ Wrote limit (expandOne out (.copy offset len)) result := by
  have below := holds.below
  have distance : w.op ≤ (offset + 4294967295) % 4294967296 ↔ ¬(0 < offset ∧ offset ≤ out.length) := by
    rw [holds.ends]
    omega
  rw [writerAppendFromSelf]
  by_cases reachable : 0 < offset ∧ offset ≤ out.length
  · obtain ⟨positive, back⟩ := reachable
    have made : expandOne out (.copy offset len) = Option.some (copyBack offset len out) := if_pos ⟨positive, back⟩
    have sized := length_copyBack positive back len
    rw [if_neg (by rw [distance]; exact not_not_intro ⟨positive, back⟩), toU32_spaceLeft counted holds, Nat.mod_eq_of_lt (by omega),
      holds.ends, made]
    -- each of the ways to copy leaves the copied text in the memory
    have copied : ∀ mem : Buffer size, out.length + len ≤ limit → copyBack offset len out <+: mem.bytes →
        Holds limit { w with mem, op := out.length + len } (copyBack offset len out) :=
      fun mem fits starts => ⟨starts, sized.symm, holds.limited, by rw [sized]; exact fits⟩
    split
    · next fast =>
      obtain ⟨few, far, space⟩ := fast
      have room := spaceLeft_least holds space
      obtain ⟨piece1, mem1, loaded1, stored1, starts1⟩ := moved_piece positive back holds.starts 8 (by omega)
      have sized1 := length_copyBack positive back 8
      rw [Nat.min_eq_right far] at starts1
      obtain ⟨piece2, mem2, loaded2, stored2, starts2⟩ := moved_piece positive (by omega) starts1 8 (by omega)
      rw [Nat.min_eq_right far, ← copyBack_add] at starts2
      rw [sized1, show out.length + 8 - offset = out.length - offset + 8 by omega] at loaded2
      rw [sized1] at stored2
      simp only [copy64, loaded1, stored1, loaded2, stored2, ok_bind]
      refine ⟨_, rfl, _, rfl, copied mem2 (by omega) (List.IsPrefix.trans ?_ starts2)⟩
      rw [show 8 + 8 = len + (16 - len) by omega, copyBack_add]
      obtain ⟨more, -, extended⟩ := copyBack_spec positive (show offset ≤ (copyBack offset len out).length by omega) (16 - len)
      exact ⟨more, extended.symm⟩
    · split
      · next room =>
        obtain ⟨mem, done, starts⟩ := incrementalCopyFastPath_spec positive back holds.starts some (by omega)
        rw [done, ok_bind]
        exact ⟨_, rfl, _, rfl, copied mem (by omega) starts⟩
      · split
        · next full =>
          refine ⟨_, rfl, fun text copied' => ?_⟩
          rw [← Option.some.inj copied', sized]
          omega
        · next fits =>
          obtain ⟨mem, done, starts⟩ := incrementalCopy_spec positive back holds.starts some (by omega)
          rw [done, ok_bind]
          exact ⟨_, rfl, _, rfl, copied mem (by omega) starts⟩
  · rw [if_pos (distance.mpr reachable)]
    refine ⟨_, rfl, fun text made => ?_⟩
    rw [expandOne, if_neg reachable] at made
    cases made

end Writer

/-! ## The stream -/

variable {compressed : Buffer n} {limit : Nat}

/-- The memory `ip` points into. -/
def areaBytes (compressed : Buffer n) (d : Decompressor) : Bytes :=
  match d.area with
  | .null => []
  | .reader => compressed.bytes
  | .scratch => d.scratch.bytes

/-- What is ahead of `ip`: the rest of what is buffered, and what the reader has behind the bytes that were peeked. -/
structure Ahead (compressed : Buffer n) (d : Decompressor) (ip : Nat) (rest : Bytes) : Prop where
  whole : d.reader.ptr + d.reader.left = n
  peeked : d.peeked ≤ d.reader.left
  running : d.eof = false
  before : ip ≤ d.ipLimit
  inside : d.ipLimit ≤ (areaBytes compressed d).length
  split : rest = ((areaBytes compressed d).drop ip).take (d.ipLimit - ip) ++ compressed.bytes.drop (d.reader.ptr + d.peeked)

/-- The decompressor has stopped, at the end of the input or not. -/
structure Stopped (d : Decompressor) (eof : Bool) : Prop where
  peeked : d.peeked ≤ d.reader.left
  ended : d.eof = eof

theorem Ahead.stopped {d : Decompressor} {ip : Nat} {rest : Bytes} (ahead : Ahead compressed d ip rest) : Stopped d false :=
  ⟨ahead.peeked, ahead.running⟩

theorem skip_left {s : Source} {count : Nat} (enough : count ≤ s.left) : skip s count = .ok ⟨s.ptr + count, s.left - count⟩ :=
  if_pos enough

theorem loadBuffered_inside {d : Decompressor} {p count : Nat} (inside : p + count ≤ (areaBytes compressed d).length)
    (some : 0 < (areaBytes compressed d).length) :
    loadBuffered compressed d p count = .ok (((areaBytes compressed d).drop p).take count) := by
  unfold areaBytes at inside some ⊢
  unfold loadBuffered
  cases area : d.area with
  | null => rw [area] at some; exact absurd some (Nat.lt_irrefl 0)
  | reader =>
    rw [area] at inside
    exact load_inside (Nat.le_trans inside (Nat.le_of_eq compressed.sized))
  | scratch =>
    rw [area] at inside
    exact load_inside (Nat.le_trans inside (Nat.le_of_eq d.scratch.sized))

section Buffered

variable {d : Decompressor} {ip : Nat} {rest : Bytes} (ahead : Ahead compressed d ip rest)

include ahead

/-- What is buffered is at the front of the stream. -/
theorem Ahead.window {count : Nat} (few : count ≤ d.ipLimit - ip) :
    ((areaBytes compressed d).drop ip).take count = rest.take count := by
  have sized : (((areaBytes compressed d).drop ip).take (d.ipLimit - ip)).length = d.ipLimit - ip := by
    have inside := ahead.inside
    rw [List.length_take, List.length_drop]
    omega
  rw [ahead.split, List.take_append_of_le_length (by omega), List.take_take, Nat.min_eq_left few]

theorem Ahead.long : d.ipLimit - ip ≤ rest.length := by
  have inside := ahead.inside
  rw [ahead.split, List.length_append, List.length_take, List.length_drop]
  omega

theorem Ahead.advance (count : Nat) (few : ip + count ≤ d.ipLimit) : Ahead compressed d (ip + count) (rest.drop count) where
  whole := ahead.whole
  peeked := ahead.peeked
  running := ahead.running
  before := few
  inside := ahead.inside
  split := by
    have inside := ahead.inside
    rw [ahead.split, List.drop_append_of_le_length, List.drop_take, List.drop_drop, Nat.sub_sub]
    rw [List.length_take, List.length_drop]
    omega

theorem Ahead.load {count : Nat} (few : ip + count ≤ d.ipLimit) (some : 0 < (areaBytes compressed d).length) :
    loadBuffered compressed d ip count = .ok (rest.take count) := by
  rw [loadBuffered_inside (Nat.le_trans few ahead.inside) some, ahead.window (by omega)]

/-- The stream behind what is buffered. -/
theorem Ahead.behind : compressed.bytes.drop (d.reader.ptr + d.peeked) = rest.drop (d.ipLimit - ip) := by
  have inside := ahead.inside
  rw [ahead.split, List.drop_left']
  rw [List.length_take, List.length_drop]
  omega

theorem Ahead.length_behind : d.reader.left - d.peeked = rest.length - (d.ipLimit - ip) := by
  have sized := compressed.sized
  have whole := ahead.whole
  rw [← List.length_drop, ← ahead.behind, List.length_drop]
  omega

/-- When all that was peeked is used up, the reader has the rest. -/
theorem Ahead.fetch : Ahead compressed
    { d with
      reader := ⟨d.reader.ptr + d.peeked, d.reader.left - d.peeked⟩
      peeked := d.reader.left - d.peeked
      area := .reader
      ip := d.reader.ptr + d.peeked
      ipLimit := d.reader.ptr + d.peeked + (d.reader.left - d.peeked) }
    (d.reader.ptr + d.peeked) (rest.drop (d.ipLimit - ip)) where
  whole := by
    have whole := ahead.whole
    have peeked := ahead.peeked
    dsimp only
    omega
  peeked := Nat.le_refl _
  running := ahead.running
  before := Nat.le_add_right _ _
  inside := by
    have whole := ahead.whole
    have peeked := ahead.peeked
    change d.reader.ptr + d.peeked + (d.reader.left - d.peeked) ≤ compressed.bytes.length
    rw [compressed.sized]
    omega
  split := by
    have whole := ahead.whole
    have peeked := ahead.peeked
    have sized := compressed.sized
    have least := ahead.length_behind
    change rest.drop (d.ipLimit - ip) = (compressed.bytes.drop (d.reader.ptr + d.peeked)).take
      (d.reader.ptr + d.peeked + (d.reader.left - d.peeked) - (d.reader.ptr + d.peeked)) ++
      compressed.bytes.drop (d.reader.ptr + d.peeked + (d.reader.left - d.peeked))
    have nothing : compressed.bytes.drop (d.reader.ptr + d.peeked + (d.reader.left - d.peeked)) = [] :=
      List.drop_of_length_le (by omega)
    rw [ahead.behind, List.take_of_length_le (by rw [List.length_drop]; omega), nothing, List.append_nil]

/-- The place where the buffered bytes start is not looked at. -/
theorem Ahead.at (start : Nat) : Ahead compressed { d with ip := start } ip rest :=
  ⟨ahead.whole, ahead.peeked, ahead.running, ahead.before, ahead.inside, ahead.split⟩

end Buffered

/-! ## Refilling -/

/-- A tag is at `ip`, with the bytes that belong to it and with four bytes behind it that can be read. -/
structure Ready (compressed : Buffer n) (d : Decompressor) (ip : Nat) (tag : UInt8) (more : Bytes) : Prop where
  ahead : Ahead compressed d ip (tag :: more)
  word : ip + 5 ≤ (areaBytes compressed d).length
  needed : ip + 1 + extraBytes tag.toNat ≤ d.ipLimit

/-- There is a tag to go on with, or the input has ended, in front of a tag or behind one that is not complete. -/
def Refilled (compressed : Buffer n) (rest : Bytes) : Decompressor × Option Nat → Prop
  | (d, some ip) => ∃ tag more, rest = tag :: more ∧ Ready compressed d ip tag more
  | (d, none) => rest = [] ∧ Stopped d true ∨
      ∃ tag more, rest = tag :: more ∧ more.length < extraBytes tag.toNat ∧ Stopped d false

theorem length_areaBytes (compressed : Buffer n) (d : Decompressor) : (areaBytes compressed d).length ≤ max n 5 := by
  unfold areaBytes
  cases d.area with
  | null => exact Nat.zero_le _
  | reader => exact Nat.le_trans (Nat.le_of_eq compressed.sized) (Nat.le_max_left n 5)
  | scratch => exact Nat.le_trans (Nat.le_of_eq d.scratch.sized) (Nat.le_max_right n 5)

theorem byteAt_tag {d : Decompressor} {ip : Nat} {tag : UInt8} {more : Bytes} (ahead : Ahead compressed d ip (tag :: more))
    (some : ip < d.ipLimit) : byteAt compressed d ip = .ok tag.toNat := by
  rw [byteAt, ahead.load some (by have inside := ahead.inside; omega)]
  change Except.ok (ofLittle [tag]) = _
  rw [ofLittle, ofLittle]
  rfl

/-- What is buffered is moved to the front of the scratch memory. -/
theorem scratch_window {window : Bytes} {count : Nat} (d : Decompressor) (sized : window.length = count) (few : count ≤ 5) :
    ∃ scratch, store d.scratch 0 window = .ok scratch ∧ window <+: scratch.bytes :=
  store_behind window (List.nil_prefix : [] <+: d.scratch.bytes) (by rw [List.length_nil]; omega)

section Refill

variable (compressed) (counted : n < 4294967296)

include counted

/-- As many bytes are added as are needed, or as many as there are. -/
theorem stitchLoop_spec (needed : Nat) (reader : Source) {scratch : Buffer 5} {front : Bytes} (most : needed ≤ 5)
    (whole : reader.ptr + reader.left = n) (starts : front <+: scratch.bytes) (fewer : front.length < needed) :
    ∃ count scratch', stitchLoop compressed needed 5 reader scratch front.length =
        .ok (⟨reader.ptr + count, reader.left - count⟩, scratch', front.length + count) ∧
      count = min (needed - front.length) reader.left ∧
      front ++ (compressed.bytes.drop reader.ptr).take count <+: scratch'.bytes := by
  rw [stitchLoop, if_pos fewer]
  dsimp only [peek]
  by_cases nothing : reader.left = 0
  · rw [if_pos nothing]
    exact ⟨0, scratch, rfl, by omega, by rwa [List.take_zero, List.append_nil]⟩
  · have added : min (needed - front.length) (reader.left % 4294967296) = min (needed - front.length) reader.left := by
      rw [Nat.mod_eq_of_lt (by omega)]
    have sized := length_window compressed (show reader.ptr + min (needed - front.length) reader.left ≤ n by omega)
    obtain ⟨scratch', stored, starts'⟩ :=
      store_behind ((compressed.bytes.drop reader.ptr).take (min (needed - front.length) reader.left)) starts (by omega)
    refine ⟨min (needed - front.length) reader.left, scratch', ?_, rfl, starts'⟩
    rw [if_neg nothing, added, load_inside (by omega), ok_bind, stored, ok_bind, skip_left (Nat.min_le_right _ _), ok_bind, stitchLoop]
    dsimp only [peek]
    -- the second round finds that enough has been added, or that nothing is left
    by_cases enough : front.length + min (needed - front.length) reader.left < needed
    · rw [if_pos enough, if_pos (by omega)]
      rfl
    · rw [if_neg enough]
      rfl

variable {compressed}

omit counted in
theorem stitched {d : Decompressor} (reader : Source) {scratch : Buffer 5} {rest : Bytes} {count : Nat} (running : d.eof = false)
    (whole : reader.ptr + reader.left = n) (starts : rest.take count <+: scratch.bytes) (few : count ≤ rest.length) (most : count ≤ 5)
    (behind : compressed.bytes.drop reader.ptr = rest.drop count) :
    Ahead compressed { d with reader, scratch, peeked := 0, area := .scratch, ip := 0, ipLimit := count } 0 rest where
  whole := whole
  peeked := Nat.zero_le _
  running := running
  before := Nat.zero_le _
  inside := Nat.le_trans most (Nat.le_of_eq scratch.sized.symm)
  split := by
    have front := List.prefix_iff_eq_take.mp starts
    rw [List.length_take, Nat.min_eq_left few] at front
    rw [List.drop_zero, Nat.sub_zero, Nat.add_zero, behind]
    change rest = scratch.bytes.take count ++ rest.drop count
    rw [← front, List.take_append_drop]

theorem refillWord_spec {d : Decompressor} {tag : UInt8} {more : Bytes} (ahead : Ahead compressed d d.ip (tag :: more))
    (buffered : d.ip < d.ipLimit) :
    ∃ d' found, refillWord compressed d = .ok (d', found) ∧
      Refilled compressed (tag :: more) (d', if found then some d'.ip else none) := by
  obtain ⟨entry, found, extra, -⟩ := charTable_spec tag.toNat_lt
  have few := extraBytes_le tag.toNat_lt
  have bound := length_areaBytes compressed d
  have inside := ahead.inside
  have long := ahead.long
  have least := ahead.length_behind
  have whole := ahead.whole
  have skipped := ahead.peeked
  have count : (d.ipLimit - d.ip) % 4294967296 = d.ipLimit - d.ip := Nat.mod_eq_of_lt (by omega)
  have taken : ((tag :: more).take (d.ipLimit - d.ip)).length = d.ipLimit - d.ip := by
    rw [List.length_take]
    omega
  rw [refillWord, check_holds buffered, ok_bind, byteAt_tag ahead buffered, ok_bind, found]
  simp only [orError, ok_bind, extra, check_holds (show extraBytes tag.toNat + 1 ≤ 5 by omega), count,
    ahead.load (show d.ip + (d.ipLimit - d.ip) ≤ d.ipLimit by omega) (by omega), skip_left ahead.peeked]
  by_cases fewer : d.ipLimit - d.ip < extraBytes tag.toNat + 1
  · obtain ⟨scratch1, stored, starts⟩ := scratch_window d taken (by omega)
    obtain ⟨added, scratch2, stitching, amount, starts2⟩ := stitchLoop_spec compressed counted (extraBytes tag.toNat + 1)
      ⟨d.reader.ptr + d.peeked, d.reader.left - d.peeked⟩ (by omega) (by dsimp only; omega) starts (by omega)
    rw [taken] at stitching amount
    dsimp only at stitching amount starts2
    rw [if_pos fewer]
    simp only [stored, ok_bind, stitching]
    by_cases incomplete : d.ipLimit - d.ip + added < extraBytes tag.toNat + 1
    · rw [if_pos incomplete]
      refine ⟨_, false, rfl, .inr ⟨tag, more, rfl, ?_, Nat.zero_le _, ahead.running⟩⟩
      rw [List.length_cons] at least
      omega
    · have whole' : d.ipLimit - d.ip + added = extraBytes tag.toNat + 1 := by omega
      rw [if_neg incomplete, check_holds whole', ok_bind]
      have starts3 : (tag :: more).take (extraBytes tag.toNat + 1) <+: scratch2.bytes := by
        rwa [ahead.behind, ← List.take_add, whole'] at starts2
      have behind : compressed.bytes.drop (d.reader.ptr + d.peeked + added) = (tag :: more).drop (extraBytes tag.toNat + 1) := by
        rw [← List.drop_drop, ahead.behind, List.drop_drop, whole']
      have ahead' := stitched ⟨d.reader.ptr + d.peeked + added, d.reader.left - d.peeked - added⟩ ahead.running
        (by dsimp only; omega) starts3 (by omega) (by omega) behind
      exact ⟨_, true, rfl, tag, more, rfl, ahead', Nat.le_of_eq scratch2.sized.symm, by dsimp only; omega⟩
  · rw [if_neg fewer]
    by_cases short : d.ipLimit - d.ip < 5
    · obtain ⟨scratch1, stored, starts⟩ := scratch_window d taken (by omega)
      rw [if_pos short]
      simp only [stored, ok_bind]
      have ahead' := stitched ⟨d.reader.ptr + d.peeked, d.reader.left - d.peeked⟩ ahead.running (by dsimp only; omega) starts
        (by omega) (by omega) ahead.behind
      exact ⟨_, true, rfl, tag, more, rfl, ahead', Nat.le_of_eq scratch1.sized.symm, by dsimp only; omega⟩
    · rw [if_neg short]
      exact ⟨_, true, rfl, tag, more, rfl, ahead, by omega, by omega⟩

theorem refillTag_spec {d : Decompressor} {rest : Bytes} (ahead : Ahead compressed d d.ip rest) :
    ∃ d' found, refillTag compressed d = .ok (d', found) ∧ Refilled compressed rest (d', if found then some d'.ip else none) := by
  have whole := ahead.whole
  have skipped := ahead.peeked
  rw [refillTag]
  by_cases used : d.ip = d.ipLimit
  · rw [if_pos used, skip_left ahead.peeked, ok_bind]
    have behind := ahead.behind
    have least := ahead.length_behind
    rw [used, Nat.sub_self, List.drop_zero] at behind
    rw [used, Nat.sub_self, Nat.sub_zero] at least
    dsimp only [peek]
    by_cases nothing : d.reader.left - d.peeked = 0
    · rw [if_pos nothing]
      refine ⟨_, false, rfl, .inl ⟨List.eq_nil_of_length_eq_zero (by omega), ?_, rfl⟩⟩
      dsimp only
      exact Nat.mod_le _ _
    · obtain ⟨tag, more, rfl⟩ := List.exists_cons_of_ne_nil (List.ne_nil_of_length_pos (by omega : 0 < rest.length))
      rw [if_neg nothing, Nat.mod_eq_of_lt (by omega)]
      have fetched := ahead.fetch
      rw [used, Nat.sub_self, List.drop_zero] at fetched
      exact refillWord_spec counted fetched (by dsimp only; omega)
  · have before := ahead.before
    have long := ahead.long
    obtain ⟨tag, more, rfl⟩ := List.exists_cons_of_ne_nil (List.ne_nil_of_length_pos (by omega : 0 < rest.length))
    rw [if_neg used]
    exact refillWord_spec counted ahead (by omega)

/-- What holds of where it stops, and of going on with a tag, holds of the whole. -/
theorem maybeRefill_spec {d : Decompressor} {w : Writer size} {ip : Nat} {rest : Bytes}
    {goOn : Decompressor → Nat → Except SnappyError (Decompressor × Writer size)} {Q : Decompressor × Writer size → Prop}
    (ahead : Ahead compressed d ip rest) (stops : ∀ d', Refilled compressed rest (d', none) → Q (d', w))
    (goesOn : ∀ d' ip', Refilled compressed rest (d', some ip') → ∃ result, goOn d' ip' = .ok result ∧ Q result) :
    ∃ result, maybeRefill compressed d w ip goOn = .ok result ∧ Q result := by
  rw [maybeRefill]
  split
  · obtain ⟨d', found, refilled, what⟩ := refillTag_spec counted (ahead.at ip)
    rw [refilled, ok_bind]
    cases found with
    | false => exact ⟨_, rfl, stops d' what⟩
    | true => exact goesOn d' d'.ip what
  · next enough =>
    have long := ahead.long
    have inside := ahead.inside
    obtain ⟨tag, more, rfl⟩ := List.exists_cons_of_ne_nil (List.ne_nil_of_length_pos (by omega : 0 < rest.length))
    have few := extraBytes_le tag.toNat_lt
    exact goesOn d ip ⟨tag, more, rfl, ahead, by omega, by omega⟩

end Refill

end Rsvndump.Snappy
