import Rsvndump.Snappy.Uncompressed

/-! The decompressor against the format.

One round of `decompress_all_tags` reads the element at the front of the stream and
writes what it expands to, so that a run ends at the end of the input exactly when the
stream consists of elements whose text fits.
-/

set_option autoImplicit false

namespace Rsvndump.Snappy

open Library

variable {n size : Nat} {compressed : Buffer n}

/-! ## Elements -/

/-- The text after the element at the front of a stream, and what is behind it. -/
def nextText (out data : Bytes) : Option (Bytes × Bytes) :=
  (readElement data).bind fun found => (expandOne out found.1).map fun text => (text, found.2)

/-- One round goes on behind the element, or there is no text of it that fits. -/
def Stepped (compressed : Buffer n) (limit : Nat) (next : Option (Bytes × Bytes)) :
    Decompressor × Writer size × Option Nat → Prop
  | (d, w, some ip) => ∃ out rest, next = some (out, rest) ∧ Holds limit w out ∧ Ahead compressed d ip rest
  | (d, _, none) => Stopped d false ∧ ∀ out rest, next = some (out, rest) → limit < out.length

/-- The length of a literal, and the bytes that hold it when it is long. -/
def literalLength (c : Nat) (more : Bytes) : Nat :=
  if c / 4 < 60 then c / 4 + 1 else (ofLittle (more.take (extraBytes c)) + 1) % 4294967296

theorem nextText_literal {tag : UInt8} {more : Bytes} (out : Bytes) (kind : tag.toNat % 4 = 0)
    (complete : extraBytes tag.toNat ≤ more.length) :
    nextText out (tag :: more) =
      if (more.drop (extraBytes tag.toNat)).length < literalLength tag.toNat more then none
      else some (out ++ (more.drop (extraBytes tag.toNat)).take (literalLength tag.toNat more),
        (more.drop (extraBytes tag.toNat)).drop (literalLength tag.toNat more)) := by
  rw [nextText, readElement, if_neg (by omega)]
  dsimp only
  rw [if_pos kind]
  change Option.bind (if (more.drop (extraBytes tag.toNat)).length < literalLength tag.toNat more then none else some _) _ = _
  split <;> rfl

/-- The low bytes of the word behind a tag. -/
theorem ofLittle_mask (word : Bytes) {count : Nat} (few : count ≤ 4) :
    ∃ mask, wordmask[count]? = some mask ∧ ofLittle word &&& mask = ofLittle (word.take count) := by
  obtain ⟨mask, found, low⟩ := and_wordmask few (ofLittle word)
  have field := ofLittle_field word 0 count
  rw [Nat.pow_zero, Nat.div_one, List.drop_zero] at field
  exact ⟨mask, found, low.trans field⟩

/-- The word behind the tag starts with the bytes that belong to the tag. -/
theorem wordAtIp_ready {d : Decompressor} {ip : Nat} {tag : UInt8} {more : Bytes} (ready : Ready compressed d ip tag more) :
    ∃ word mask, wordAtIp compressed d (ip + 1) = .ok word ∧ wordmask[extraBytes tag.toNat]? = some mask ∧
      word &&& mask = ofLittle (more.take (extraBytes tag.toNat)) := by
  have word := ready.word
  have needed := ready.needed
  have few := extraBytes_le tag.toNat_lt
  obtain ⟨mask, found, low⟩ := ofLittle_mask (((areaBytes compressed d).drop (ip + 1)).take 4) few
  refine ⟨_, mask, by rw [wordAtIp, loadBuffered_inside (by omega) (by omega)]; rfl, found, ?_⟩
  rw [low, List.take_take, Nat.min_eq_left few, (ready.ahead.advance 1 (by omega)).window (by omega)]
  rfl

theorem Ready.complete {d : Decompressor} {ip : Nat} {tag : UInt8} {more : Bytes} (ready : Ready compressed d ip tag more) :
    extraBytes tag.toNat ≤ more.length := by
  have needed := ready.needed
  have long := ready.ahead.long
  rw [List.length_cons] at long
  omega

section Tags

variable {limit : Nat} (counted : n < 4294967296) (allocated : limit ≤ size) (limited : limit < 4294967296)

include allocated limited

theorem decompressCopy_spec {d : Decompressor} {w : Writer size} {out : Bytes} {ip : Nat} {tag : UInt8} {more : Bytes}
    (ready : Ready compressed d ip tag more) (holds : Holds limit w out) (kind : tag.toNat % 4 ≠ 0) :
    ∃ result, decompressCopy compressed d w tag.toNat (ip + 1) = .ok result ∧
      Stepped compressed limit (nextText out (tag :: more)) result := by
  obtain ⟨entry, found, extra, near, far⟩ := charTable_spec tag.toNat_lt
  obtain ⟨word, mask, loaded, masked, low⟩ := wordAtIp_ready ready
  have byte := tag.toNat_lt
  have few := extraBytes_le byte
  have complete := ready.complete
  have needed := ready.needed
  have value := ofLittle_lt (more.take (extraBytes tag.toNat))
  rw [List.length_take, Nat.min_eq_left complete] at value
  -- what the table and the word say is what the element says
  have element : ∃ offset len, entry &&& 0xff = len ∧ ((entry &&& 0x700) + ofLittle (more.take (extraBytes tag.toNat))) % 4294967296 =
      offset ∧ offset < 4294967296 ∧ 0 < len ∧ len ≤ 64 ∧
      readElement (tag :: more) = some (.copy offset len, more.drop (extraBytes tag.toNat)) := by
    rw [readElement, if_neg (by omega)]
    dsimp only
    rw [if_neg kind]
    by_cases one : tag.toNat % 4 = 1
    · have single : extraBytes tag.toNat = 1 := by rw [extraBytes, if_neg kind, if_pos one]
      obtain ⟨length, offset⟩ := near one
      rw [single] at value ⊢
      rw [if_pos one, length, offset]
      refine ⟨_, _, rfl, Nat.mod_eq_of_lt (by omega), by omega, by omega, by omega, rfl⟩
    · obtain ⟨length, offset⟩ := far kind one
      have bound : 256 ^ extraBytes tag.toNat ≤ 256 ^ 4 := Nat.pow_le_pow_right (by decide) few
      rw [if_neg one, length, offset, Nat.zero_add]
      exact ⟨_, _, rfl, Nat.mod_eq_of_lt (by omega), by omega, by omega, by omega, rfl⟩
  obtain ⟨offset, len, length, distance, small, some, short, read⟩ := element
  obtain ⟨⟨w', appended⟩, copied, wrote⟩ := writerAppendFromSelf_spec allocated limited holds small some short
  rw [decompressCopy, found]
  simp only [orError, ok_bind, extra, masked, loaded, low, length, distance, copied]
  rw [nextText, read, Option.bind_some]
  have ahead := ready.ahead.advance (1 + extraBytes tag.toNat) (by omega)
  rw [Nat.add_comm 1, List.drop_succ_cons, ← Nat.add_assoc, Nat.add_right_comm] at ahead
  cases appended with
  | true =>
    obtain ⟨text, made, holds'⟩ := wrote
    exact ⟨_, rfl, text, _, by rw [made]; rfl, holds', ahead⟩
  | false =>
    refine ⟨_, rfl, ready.ahead.stopped, fun text rest made => ?_⟩
    obtain ⟨text', expanded, same⟩ := Option.map_eq_some_iff.mp made
    cases same
    exact wrote text expanded

include counted

/-- How far a literal has come when its rest is buffered, or that it is not complete or does not fit. -/
def Appended (compressed : Buffer n) (limit : Nat) (out rest : Bytes) (len : Nat) :
    Decompressor × Writer size × Option (Nat × Nat) → Prop
  | (d, w, some (ip, left)) => ∃ done, done + left = len ∧ done ≤ rest.length ∧ Holds limit w (out ++ rest.take done) ∧
      Ahead compressed d ip (rest.drop done) ∧ ip + left ≤ d.ipLimit ∧ 0 < (areaBytes compressed d).length
  | (d, _, none) => Stopped d false ∧ (rest.length < len ∨ limit < out.length + len)

/-- At most one fragment is fetched before the input has ended. -/
theorem literalLoop_spec {fuel : Nat} {d : Decompressor} {w : Writer size} {out rest : Bytes} {ip : Nat}
    (ahead : Ahead compressed d ip rest) (nonempty : 0 < (areaBytes compressed d).length) (holds : Holds limit w out) (len : Nat)
    (enough : 2 ≤ fuel ∨ d.reader.left = d.peeked ∧ 1 ≤ fuel) :
    ∃ result, literalLoop compressed fuel d w ip len = .ok result ∧ Appended compressed limit out rest len result := by
  induction fuel generalizing d w out rest ip len with
  | zero => omega
  | succ fuel ih =>
    have before := ahead.before
    have whole := ahead.whole
    have skipped := ahead.peeked
    have inside := ahead.inside
    have bound := length_areaBytes compressed d
    have long := ahead.long
    have least := ahead.length_behind
    rw [literalLoop, Nat.mod_eq_of_lt (by omega : d.ipLimit - ip < 4294967296)]
    -- the literal goes on behind what is buffered
    by_cases more : d.ipLimit - ip < len
    · have taken : (rest.take (d.ipLimit - ip)).length = d.ipLimit - ip := by
        rw [List.length_take]
        omega
      obtain ⟨⟨w', appended⟩, written, wrote⟩ := writerAppend_spec allocated limited holds
        (ahead.load (show ip + (d.ipLimit - ip) ≤ d.ipLimit by omega) nonempty) taken
      dsimp only [peek]
      rw [if_pos more, written, ok_bind]
      cases appended with
      | false =>
        have full := wrote _ rfl
        rw [List.length_append, taken] at full
        exact ⟨_, rfl, ahead.stopped, .inr (by omega)⟩
      | true =>
        obtain ⟨text, made, holds'⟩ := wrote
        rw [Option.some.injEq] at made
        subst made
        simp only [not_true_eq_false, if_false, skip_left skipped, ok_bind]
        rw [Nat.mod_eq_of_lt (by omega : d.reader.left - d.peeked < 4294967296)]
        by_cases nothing : d.reader.left - d.peeked = 0
        · rw [if_pos nothing]
          exact ⟨_, rfl, ⟨by dsimp only; omega, ahead.running⟩, .inl (by omega)⟩
        · rw [if_neg nothing]
          obtain ⟨result, looped, what⟩ := ih (ahead.fetch.at d.ip)
            (by change 0 < compressed.bytes.length; rw [compressed.sized]; omega) holds' (len - (d.ipLimit - ip)) (by dsimp only; omega)
          refine ⟨result, looped, ?_⟩
          obtain ⟨d', w'', ending⟩ := result
          cases ending with
          | none =>
            obtain ⟨stopped, why⟩ := what
            rw [List.length_append, taken, List.length_drop] at why
            exact ⟨stopped, by omega⟩
          | some place =>
            obtain ⟨done, sum, most, holds'', ahead', rest'⟩ := what
            rw [List.length_drop] at most
            rw [List.append_assoc, ← List.take_add] at holds''
            rw [List.drop_drop] at ahead'
            exact ⟨d.ipLimit - ip + done, by omega, by omega, holds'', ahead', rest'⟩
    · rw [if_neg more]
      refine ⟨_, rfl, 0, by omega, Nat.zero_le _, ?_, ahead, by omega, nonempty⟩
      rwa [List.take_zero, List.append_nil]

theorem appendLiteral_spec {d : Decompressor} {w : Writer size} {out rest : Bytes} {ip len : Nat}
    (ahead : Ahead compressed d ip rest) (nonempty : 0 < (areaBytes compressed d).length) (holds : Holds limit w out) :
    ∃ result, appendLiteral compressed d w ip len = .ok result ∧
      Stepped compressed limit (if rest.length < len then none else some (out ++ rest.take len, rest.drop len)) result := by
  obtain ⟨⟨d', w', ending⟩, looped, what⟩ := literalLoop_spec counted allocated limited ahead nonempty holds len
    (.inl (show 2 ≤ 4 by decide))
  rw [appendLiteral, looped, ok_bind]
  cases ending with
  | none =>
    obtain ⟨stopped, why⟩ := what
    refine ⟨_, rfl, stopped, fun text behind made => ?_⟩
    rw [Option.ite_none_left_eq_some] at made
    obtain ⟨complete, made⟩ := made
    cases made
    rw [List.length_append, List.length_take]
    omega
  | some place =>
    -- what is left of the literal is buffered
    obtain ⟨done, sum, most, holds', ahead', buffered, nonempty'⟩ := what
    have long := ahead'.long
    rw [List.length_drop] at long
    have taken : ((rest.drop done).take place.2).length = place.2 := by
      rw [List.length_take, List.length_drop]
      omega
    obtain ⟨⟨w'', appended⟩, written, wrote⟩ := writerAppend_spec allocated limited holds' (ahead'.load buffered nonempty') taken
    have whole : out ++ rest.take done ++ (rest.drop done).take place.2 = out ++ rest.take len := by
      rw [List.append_assoc, ← List.take_add, sum]
    have complete : ¬rest.length < len := by omega
    rw [whole] at wrote
    dsimp only
    rw [written, ok_bind, if_neg complete]
    cases appended with
    | true =>
      obtain ⟨text, made, holds''⟩ := wrote
      rw [Option.some.injEq] at made
      subst made
      have advanced := ahead'.advance _ buffered
      rw [List.drop_drop, sum] at advanced
      exact ⟨_, rfl, _, _, rfl, holds'', advanced⟩
    | false =>
      refine ⟨_, rfl, ahead'.stopped, fun text behind made => ?_⟩
      cases made
      exact wrote _ rfl

theorem decompressLiteral_spec {d : Decompressor} {w : Writer size} {out : Bytes} {ip : Nat} {tag : UInt8} {more : Bytes}
    (ready : Ready compressed d ip tag more) (holds : Holds limit w out) (kind : tag.toNat % 4 = 0) :
    ∃ result, decompressLiteral compressed d w tag.toNat (ip + 1) = .ok result ∧
      Stepped compressed limit (nextText out (tag :: more)) result := by
  have byte := tag.toNat_lt
  have word := ready.word
  have needed := ready.needed
  have bound := length_areaBytes compressed d
  have inside := ready.ahead.inside
  have ahead : Ahead compressed d (ip + 1) more := ready.ahead.advance 1 (by omega)
  have nonempty : 0 < (areaBytes compressed d).length := by omega
  have long := ahead.long
  have quarter : tag.toNat >>> 2 = tag.toNat / 4 := Nat.shiftRight_eq_div_pow _ 2
  have next := nextText_literal out kind ready.complete
  rw [decompressLiteral, quarter, Nat.mod_eq_of_lt (by omega : d.ipLimit - (ip + 1) < 4294967296)]
  have loaded : ∀ start count, start + count ≤ d.ipLimit - (ip + 1) →
      loadBuffered compressed d (ip + 1 + start) count = .ok ((more.drop start).take count) :=
    fun start count few => (ahead.advance start (by omega)).load (by omega) nonempty
  rcases writerTryFastAppend_spec allocated holds (tag.toNat / 4 + 1) long loaded with
    slow | ⟨w', fast, short, complete, holds'⟩
  · rw [slow, ok_bind]
    dsimp only
    rw [if_neg Bool.false_ne_true]
    by_cases longer : 61 ≤ tag.toNat / 4 + 1
    · obtain ⟨value, mask, loaded, masked, low⟩ := wordAtIp_ready ready
      have extra : extraBytes tag.toNat = tag.toNat / 4 + 1 - 60 := by
        rw [extraBytes, if_pos kind, if_neg (by omega)]
        omega
      have length : (ofLittle (more.take (extraBytes tag.toNat)) + 1) % 4294967296 = literalLength tag.toNat more := by
        rw [literalLength, if_neg (by omega)]
      rw [if_pos longer, ← extra, masked, orError, ok_bind, loaded, ok_bind, low, length, next]
      exact appendLiteral_spec counted allocated limited (ahead.advance _ (by omega)) nonempty holds
    · have extra : extraBytes tag.toNat = 0 := by
        rw [extraBytes, if_pos kind, if_pos (by omega)]
      have length : tag.toNat / 4 + 1 = literalLength tag.toNat more := by
        rw [literalLength, if_pos (by omega)]
      rw [if_neg longer, next, extra, List.drop_zero, length]
      exact appendLiteral_spec counted allocated limited ahead nonempty holds
  · have extra : extraBytes tag.toNat = 0 := by
      rw [extraBytes, if_pos kind, if_pos (by omega)]
    have length : literalLength tag.toNat more = tag.toNat / 4 + 1 := by
      rw [literalLength, if_pos (by omega)]
    rw [fast, ok_bind]
    dsimp only
    rw [if_pos rfl, check_holds (by omega), ok_bind, next, extra, List.drop_zero, length, if_neg (by omega)]
    exact ⟨_, rfl, _, _, rfl, holds', ahead.advance _ (by omega)⟩

/-- One round of the loop reads one element. -/
theorem decompressTag_spec {d : Decompressor} {w : Writer size} {out : Bytes} {ip : Nat} {tag : UInt8} {more : Bytes}
    (ready : Ready compressed d ip tag more) (holds : Holds limit w out) :
    ∃ result, decompressTag compressed d w ip = .ok result ∧ Stepped compressed limit (nextText out (tag :: more)) result := by
  have needed := ready.needed
  have kind : tag.toNat &&& 3 = tag.toNat % 4 := Nat.and_two_pow_sub_one_eq_mod tag.toNat 2
  rw [decompressTag, byteAt_tag ready.ahead (by omega), ok_bind, kind]
  split
  · next literal => exact decompressLiteral_spec counted allocated limited ready holds literal
  · next copy => exact decompressCopy_spec allocated limited ready holds copy

end Tags

/-! ## Runs -/

/-- The text after all elements of a stream. -/
def restOfText (out data : Bytes) : Option Bytes := (readElements data).bind (expand out)

/-- A run has written the whole text and has seen the end of the input, or there is no text that fits. -/
def Finished (limit : Nat) (text : Option Bytes) : Decompressor × Writer size → Prop
  | (d, w) => (Stopped d true ∧ ∃ out, text = some out ∧ Holds limit w out) ∨
      Stopped d false ∧ ∀ out, text = some out → limit < out.length

theorem restOfText_cons (out : Bytes) (tag : UInt8) (more : Bytes) :
    restOfText out (tag :: more) = (nextText out (tag :: more)).bind fun next => restOfText next.1 next.2 := by
  rw [restOfText, readElements_cons, nextText]
  cases readElement (tag :: more) with
  | none => rfl
  | some found =>
    obtain ⟨e, rest⟩ := found
    rw [Option.bind_some, Option.bind_some]
    dsimp only
    cases read : readElements rest with
    | none =>
      cases expandOne out e with
      | none => rfl
      | some text => simp [restOfText, read]
    | some elements =>
      rw [Option.map_some, Option.bind_some, expand_cons]
      cases expandOne out e with
      | none => rfl
      | some text => simp [restOfText, read]

theorem restOfText_longer {out data text : Bytes} (made : restOfText out data = some text) : out.length ≤ text.length := by
  obtain ⟨elements, -, expanded⟩ := Option.bind_eq_some_iff.mp made
  exact expand_length_le expanded

/-- Where no tag is complete there is the end of the text, or there is none. -/
theorem finished_of_refilled {limit : Nat} {d : Decompressor} {w : Writer size} {out rest : Bytes} (holds : Holds limit w out)
    (refilled : Refilled compressed rest (d, none)) : Finished limit (restOfText out rest) (d, w) := by
  rcases refilled with ⟨rfl, stopped⟩ | ⟨tag, more, rfl, incomplete, stopped⟩
  · exact .inl ⟨stopped, out, rfl, holds⟩
  · refine .inr ⟨stopped, fun text made => ?_⟩
    rw [restOfText_cons, nextText, readElement, if_pos incomplete] at made
    cases made

section Runs

variable {limit : Nat} (counted : n < 4294967296) (allocated : limit ≤ size) (limited : limit < 4294967296)

include counted allocated limited

/-- Each round leaves less of the stream. -/
theorem tagsLoop_spec {fuel : Nat} {d : Decompressor} {w : Writer size} {out rest : Bytes} {ip : Nat}
    (ahead : Ahead compressed d ip rest) (holds : Holds limit w out) (enough : rest.length < fuel) :
    ∃ result, tagsLoop compressed fuel d w ip = .ok result ∧ Finished limit (restOfText out rest) result := by
  induction fuel generalizing d w out rest ip with
  | zero => omega
  | succ fuel ih =>
    rw [tagsLoop]
    refine maybeRefill_spec counted ahead (fun d1 refilled => finished_of_refilled holds refilled) fun d1 ip1 refilled => ?_
    obtain ⟨tag, more, rfl, ready⟩ := refilled
    obtain ⟨⟨d2, w2, ending⟩, done, stepped⟩ := decompressTag_spec counted allocated limited ready holds
    rw [done, ok_bind, restOfText_cons]
    cases ending with
    | none =>
      obtain ⟨stopped, why⟩ := stepped
      refine ⟨_, rfl, .inr ⟨stopped, fun text made => ?_⟩⟩
      obtain ⟨next, found, after⟩ := Option.bind_eq_some_iff.mp made
      exact Nat.lt_of_lt_of_le (why next.1 next.2 found) (restOfText_longer after)
    | some ip2 =>
      obtain ⟨out2, rest, found, holds2, ahead2⟩ := stepped
      have shorter : rest.length < (tag :: more).length := by
        obtain ⟨element, read, made⟩ := Option.bind_eq_some_iff.mp found
        obtain ⟨text, -, same⟩ := Option.map_eq_some_iff.mp made
        rw [Prod.mk.injEq] at same
        rw [← same.2]
        exact readElement_shorter read
      rw [found, Option.bind_some]
      dsimp only
      refine maybeRefill_spec counted ahead2 (fun d3 refilled => finished_of_refilled holds2 refilled) fun d3 ip3 refilled => ?_
      obtain ⟨tag3, more3, rfl, ready3⟩ := refilled
      exact ih ready3.ahead holds2 (by omega)

theorem decompressAllTags_spec {d : Decompressor} {w : Writer size} {out rest : Bytes} (ahead : Ahead compressed d d.ip rest)
    (holds : Holds limit w out) (short : rest.length ≤ n) :
    ∃ result, decompressAllTags compressed d w = .ok result ∧ Finished limit (restOfText out rest) result := by
  refine maybeRefill_spec counted ahead (fun d1 refilled => finished_of_refilled holds refilled) fun d1 ip1 refilled => ?_
  obtain ⟨tag, more, rfl, ready⟩ := refilled
  exact tagsLoop_spec counted allocated limited ready.ahead holds (by omega)

end Runs

/-! ## Streams -/

theorem or_group_mod {result shift b : Nat} (small : result < 2 ^ shift) (few : shift ≤ 32) :
    result ||| b <<< shift % 4294967296 = (result + 2 ^ shift * b) % 4294967296 := by
  have power : 4294967296 = 2 ^ shift * 2 ^ (32 - shift) := by
    rw [← Nat.pow_add, Nat.add_sub_cancel' few]
  have cut : b <<< shift % (2 ^ shift * 2 ^ (32 - shift)) = (b % 2 ^ (32 - shift)) <<< shift := by
    rw [Nat.shiftLeft_eq, Nat.shiftLeft_eq, Nat.mul_comm b, Nat.mul_mod_mul_left, Nat.mul_comm]
  rw [power, cut, or_group small, Nat.mod_mul, Nat.add_mul_mod_self_left, Nat.mod_eq_of_lt small,
    Nat.add_mul_div_left _ _ (Nat.two_pow_pos shift), Nat.div_eq_of_lt small, Nat.zero_add]

/-- The loop reads at most five groups and cuts the number at 32 bits. -/
theorem lengthLoop_spec {count fuel : Nat} {reader : Source} {result : Nat} (few : count ≤ 5)
    (whole : reader.ptr + reader.left = n) (small : result < 2 ^ (35 - 7 * count)) (enough : count < fuel) :
    ∃ reader', lengthLoop compressed fuel reader (35 - 7 * count) result =
        .ok (reader', (readVarint count (compressed.bytes.drop reader.ptr)).map fun read =>
          (result + 2 ^ (35 - 7 * count) * read.1) % 4294967296) ∧
      reader'.ptr + reader'.left = n ∧
      ∀ read, readVarint count (compressed.bytes.drop reader.ptr) = some read → compressed.bytes.drop reader'.ptr = read.2 := by
  induction count generalizing fuel reader result with
  | zero =>
    cases fuel with
    | zero => omega
    | succ fuel => exact ⟨reader, rfl, whole, fun read found => by cases found⟩
  | succ count ih =>
    have sized := compressed.sized
    cases fuel with
    | zero => omega
    | succ fuel =>
      rw [lengthLoop, if_neg (by omega)]
      dsimp only [peek]
      by_cases nothing : reader.left = 0
      · have ended : compressed.bytes.drop reader.ptr = [] := List.drop_of_length_le (by omega)
        rw [if_pos nothing, ended]
        exact ⟨reader, rfl, whole, fun read found => by cases found⟩
      · have inside : reader.ptr < compressed.bytes.length := by omega
        have first : load compressed reader.ptr 1 = .ok _ := load_inside (by omega)
        rw [List.drop_eq_getElem_cons inside, List.take_succ_cons, List.take_zero] at first
        have byte := compressed.bytes[reader.ptr].toNat_lt
        have value : ofLittle [compressed.bytes[reader.ptr]] = compressed.bytes[reader.ptr].toNat := by
          rw [ofLittle, ofLittle]
          rfl
        rw [List.drop_eq_getElem_cons inside, if_neg nothing, first, ok_bind, value, skip_left (by omega), ok_bind, low_bits,
          or_group_mod small (by omega), readVarint]
        generalize compressed.bytes[reader.ptr].toNat = b at *
        by_cases last : b < 128
        · rw [if_pos last, if_pos last, Nat.mod_eq_of_lt last]
          refine ⟨_, rfl, by dsimp only; omega, fun read found => ?_⟩
          rw [← Option.some.inj found]
        · rw [if_neg last, if_neg last]
          cases count with
          | zero =>
            -- the fifth group is the last that is read
            cases fuel with
            | zero => omega
            | succ fuel => exact ⟨_, rfl, by dsimp only; omega, fun read found => by cases found⟩
          | succ count =>
            have power : 2 ^ (35 - 7 * (count + 1)) = 2 ^ (35 - 7 * (count + 1 + 1)) * 128 := by
              rw [show 35 - 7 * (count + 1) = 35 - 7 * (count + 1 + 1) + 7 by omega, Nat.pow_add]
            have group : 2 ^ (35 - 7 * (count + 1 + 1)) * (b % 128) + 2 ^ (35 - 7 * (count + 1 + 1)) ≤
                2 ^ (35 - 7 * (count + 1 + 1)) * 128 := by
              rw [← Nat.mul_succ]
              exact Nat.mul_le_mul_left _ (Nat.mod_lt _ (by decide))
            have bound : 2 ^ (35 - 7 * (count + 1)) ≤ 2 ^ 28 := Nat.pow_le_pow_right (by decide) (by omega)
            have next : result + 2 ^ (35 - 7 * (count + 1 + 1)) * (b % 128) < 2 ^ (35 - 7 * (count + 1)) := by omega
            obtain ⟨reader', looped, whole', rest⟩ := @ih fuel ⟨reader.ptr + 1, reader.left - 1⟩ _ (by omega)
              (by dsimp only; omega) next (by omega)
            rw [Nat.mod_eq_of_lt (Nat.lt_of_lt_of_le next (Nat.le_trans bound (by decide))),
              show 35 - 7 * (count + 1 + 1) + 7 = 35 - 7 * (count + 1) by omega, looped]
            refine ⟨reader', ?_, whole', fun read found => ?_⟩
            · rw [Option.map_map]
              congr 3
              funext read
              have sum : result + 2 ^ (35 - 7 * (count + 1 + 1)) * (b % 128) + 2 ^ (35 - 7 * (count + 1)) * read.1 =
                  result + 2 ^ (35 - 7 * (count + 1 + 1)) * (b % 128 + 128 * read.1) := by
                rw [power, Nat.mul_add (2 ^ (35 - 7 * (count + 1 + 1))), Nat.mul_assoc, Nat.add_assoc]
              rw [sum]
              rfl
            · obtain ⟨read', found', rfl⟩ := Option.map_eq_some_iff.mp found
              exact rest read' found'

/-- The number at the front of a stream. -/
theorem lengthLoop_front (compressed : Buffer n) :
    ∃ reader, lengthLoop compressed 6 ⟨0, n⟩ 0 0 =
        .ok (reader, (readVarint 5 compressed.bytes).map fun read => read.1 % 4294967296) ∧
      reader.ptr + reader.left = n ∧
      ∀ read, readVarint 5 compressed.bytes = some read → compressed.bytes.drop reader.ptr = read.2 := by
  have start : (⟨0, n⟩ : Source).ptr + (⟨0, n⟩ : Source).left = n := Nat.zero_add n
  have small : 0 < 2 ^ (35 - 7 * 5) := by decide
  obtain ⟨reader, looped, whole, rest⟩ := lengthLoop_spec (Nat.le_refl 5) start small (Nat.lt_succ_self 5)
  simp only [List.drop_zero, Nat.reduceMul, Nat.sub_self, Nat.pow_zero, Nat.one_mul, Nat.zero_add] at looped rest
  exact ⟨reader, looped, whole, rest⟩

/-- A stream is decompressed without an access outside the memory, to its text if the text has the length at its front. -/
theorem internalUncompress_spec {read : Nat × Bytes} (counted : n < 4294967296) (declared : readVarint 5 compressed.bytes = some read)
    (allocated : read.1 % 4294967296 ≤ size) (scratch : Buffer 5) (uncompressed : Buffer size) :
    ∃ result w, internalUncompress compressed scratch ⟨uncompressed, 0, 0⟩ 0xffffffff = .ok (result, w) ∧
      ((result = 0 ∧ ∃ text, restOfText [] read.2 = some text ∧ text.length = read.1 % 4294967296 ∧ text <+: w.mem.bytes) ∨
        result = eio ∧ ∀ text, restOfText [] read.2 = some text → text.length ≠ read.1 % 4294967296) := by
  obtain ⟨reader, looped, whole, rest⟩ := lengthLoop_front compressed
  have behind := rest read declared
  have value : read.1 % 4294967296 < 4294967296 := Nat.mod_lt _ (by decide)
  rw [declared, Option.map_some] at looped
  have start : Ahead compressed { initSnappyDecompressor ⟨0, n⟩ scratch with reader := reader } 0 read.2 := by
    refine ⟨whole, Nat.zero_le _, rfl, Nat.le_refl _, Nat.le_refl _, ?_⟩
    exact behind.symm
  have holds : Holds (read.1 % 4294967296) (writerSetExpectedLength (⟨uncompressed, 0, 0⟩ : Writer size) (read.1 % 4294967296)) [] :=
    ⟨List.nil_prefix, rfl, Nat.zero_add _, Nat.zero_le _⟩
  have short : read.2.length ≤ n := by
    have sized := compressed.sized
    rw [← behind, List.length_drop]
    omega
  obtain ⟨⟨d, w⟩, done, finished⟩ := decompressAllTags_spec counted allocated value start holds short
  have unread : (initSnappyDecompressor ⟨0, n⟩ scratch).area = .null := rfl
  rw [internalUncompress, readUncompressedLength, check_holds unread, ok_bind]
  simp only [initSnappyDecompressor] at done ⊢
  rw [looped, ok_bind]
  dsimp only [pure_eq_ok]
  rw [ok_bind]
  dsimp only
  rw [if_neg (by omega), done, ok_bind, exitSnappyDecompressor]
  rcases finished with ⟨stopped, text, made, holds'⟩ | ⟨stopped, why⟩
  · rw [skip_left stopped.peeked, ok_bind, pure_eq_ok, ok_bind]
    refine ⟨_, w, rfl, ?_⟩
    simp only [stopped.ended, Bool.true_and, writerCheckLength, holds'.ends, holds'.limited, decide_eq_true_eq]
    by_cases same : text.length = read.1 % 4294967296
    · rw [if_pos same]
      exact .inl ⟨rfl, text, made, same, holds'.starts⟩
    · rw [if_neg same]
      refine .inr ⟨rfl, fun text' made' => ?_⟩
      rw [made, Option.some.injEq] at made'
      rwa [← made']
  · rw [skip_left stopped.peeked, ok_bind, pure_eq_ok, ok_bind]
    refine ⟨_, w, rfl, .inr ⟨?_, fun text made => Nat.ne_of_gt (why text made)⟩⟩
    simp [stopped.ended]

end Rsvndump.Snappy
