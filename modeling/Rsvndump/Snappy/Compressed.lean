import Rsvndump.Snappy.Compress

/-! What the compressor writes.

Each literal and each copy that is written is read back as such, and the elements
written so far expand to the input up to `next_emit`. An element that is complete has
saved at least five sixths of a byte against the bound on the compressed length.
-/

set_option autoImplicit false

namespace Rsvndump.Snappy

open Library

variable {size cap : Nat}

/-! ## Written elements -/

/-- A reader finds the elements at the front, whatever is behind. -/
def Spells (bytes : Bytes) (elements : List (Element UInt8)) : Prop :=
  ∀ rest, readElements (bytes ++ rest) = (readElements rest).map (elements ++ ·)

theorem spells_nil : Spells [] [] := by
  intro rest
  rw [List.nil_append]
  cases readElements rest <;> rfl

theorem Spells.append {bytes more : Bytes} {elements others : List (Element UInt8)} (first : Spells bytes elements)
    (second : Spells more others) : Spells (bytes ++ more) (elements ++ others) := by
  intro rest
  rw [List.append_assoc, first, second, Option.map_map]
  congr 1
  funext tail
  rw [Function.comp_apply, List.append_assoc]

theorem spells_element {bytes : Bytes} {e : Element UInt8} (nonempty : bytes ≠ [])
    (read : ∀ rest, readElement (bytes ++ rest) = some (e, rest)) : Spells bytes [e] := by
  intro rest
  obtain ⟨tag, bytes, rfl⟩ := List.exists_cons_of_ne_nil nonempty
  have found := read rest
  rw [List.cons_append] at found ⊢
  rw [readElements_cons, found]
  rfl

theorem toNat_byteOf {n : Nat} (small : n < 256) : (byteOf n).toNat = n := by
  rw [byteOf, UInt8.toNat_ofNat']
  omega

theorem lengthBytes_cons {fuel n : Nat} (positive : 0 < n) :
    lengthBytes (fuel + 1) n = UInt8.ofNat n :: lengthBytes fuel (n / 256) := by
  have low : n &&& 0xff = n % 256 := Nat.and_two_pow_sub_one_eq_mod n 8
  have byte : byteOf (n % 256) = UInt8.ofNat n := UInt8.toNat_inj.mp (by
    rw [toNat_byteOf (Nat.mod_lt n (by decide)), UInt8.toNat_ofNat'])
  rw [lengthBytes, if_pos positive, low, byte, Nat.shiftRight_eq_div_pow]

/-- How many length bytes a literal of a fragment has. -/
def lengthCount (n : Nat) : Nat := if n < 60 then 0 else if n < 256 then 1 else 2

theorem lengthBytes_eq {n : Nat} (long : 60 ≤ n) (small : n < 65536) :
    lengthBytes 4 n = toLittle (lengthCount n) n ∧ n < 256 ^ lengthCount n := by
  rw [lengthCount, if_neg (by omega), lengthBytes_cons (by omega)]
  by_cases short : n < 256
  · rw [if_pos short, show n / 256 = 0 by omega]
    exact ⟨rfl, short⟩
  · rw [if_neg short, lengthBytes_cons (by omega), show n / 256 / 256 = 0 by omega]
    exact ⟨rfl, small⟩

/-- What `emit_literal` writes in front of the text. -/
def literalHeader (len : Nat) : Bytes :=
  if len - 1 < 60 then [byteOf ((len - 1) <<< 2)]
  else byteOf ((59 + (lengthBytes 4 (len - 1)).length) <<< 2) :: lengthBytes 4 (len - 1)

theorem length_literalHeader {len : Nat} (small : len ≤ 65536) : (literalHeader len).length = 1 + lengthCount (len - 1) := by
  rw [literalHeader]
  split
  · next short => rw [lengthCount, if_pos short, List.length_singleton]
  · next long => rw [(lengthBytes_eq (by omega) (by omega)).1, List.length_cons, length_toLittle, Nat.add_comm]

theorem spells_literal {text : Bytes} (some : 0 < text.length) (small : text.length ≤ 65536) :
    Spells (literalHeader text.length ++ text) [.literal text] := by
  have tagged : literalHeader text.length ++ text ≠ [] := by
    intro empty
    rw [(List.append_eq_nil_iff.mp empty).2] at some
    exact absurd some (Nat.lt_irrefl 0)
  refine spells_element tagged fun rest => ?_
  rw [literalHeader, List.append_assoc]
  split
  · next short =>
    have tag : (byteOf ((text.length - 1) <<< 2)).toNat = (text.length - 1) * 4 := by
      rw [Nat.shiftLeft_eq]
      exact toNat_byteOf (by omega)
    have plain : (text.length - 1) * 4 % 4 = 0 ∧ (text.length - 1) * 4 / 4 = text.length - 1 := by omega
    have extra : extraBytes ((text.length - 1) * 4) = 0 := by
      rw [extraBytes, if_pos plain.1, plain.2, if_pos short]
    have sized : text.length - 1 + 1 = text.length := by omega
    rw [List.singleton_append, readElement]
    simp only [tag, extra, plain, List.drop_zero, if_pos short, sized]
    rw [if_neg (Nat.not_lt_zero _), if_pos trivial, if_neg (by rw [List.length_append]; omega), List.take_left, List.drop_left]
  · next long =>
    obtain ⟨made, bound⟩ := lengthBytes_eq (n := text.length - 1) (by omega) (by omega)
    have few : 1 ≤ lengthCount (text.length - 1) ∧ lengthCount (text.length - 1) ≤ 2 := by
      rw [lengthCount, if_neg long]
      split <;> omega
    rw [made, length_toLittle, List.cons_append]
    generalize lengthCount (text.length - 1) = count at *
    have tag : (byteOf ((59 + count) <<< 2)).toNat = (59 + count) * 4 := by
      rw [Nat.shiftLeft_eq]
      exact toNat_byteOf (by omega)
    have plain : (59 + count) * 4 % 4 = 0 ∧ (59 + count) * 4 / 4 = 59 + count := by omega
    have extra : extraBytes ((59 + count) * 4) = count := by
      rw [extraBytes, if_pos plain.1, plain.2, if_neg (by omega)]
      omega
    have front : (toLittle count (text.length - 1) ++ (text ++ rest)).take count = toLittle count (text.length - 1) :=
      List.take_left' (length_toLittle _ _)
    have back : (toLittle count (text.length - 1) ++ (text ++ rest)).drop count = text ++ rest :=
      List.drop_left' (length_toLittle _ _)
    have sized : (text.length - 1 + 1) % 4294967296 = text.length := by omega
    rw [readElement]
    simp only [tag, extra, plain, front, back, ofLittle_toLittle bound, sized]
    have noShort : ¬59 + count < 60 := by omega
    rw [if_neg (by rw [List.length_append, length_toLittle]; omega), if_pos trivial, if_neg noShort,
      if_neg (by rw [List.length_append]; omega), List.take_left, List.drop_left]

theorem spells_copy {offset len : Nat} (least : 4 ≤ len) (most : len ≤ 64) (near : offset < 65536) :
    Spells (copyBytes offset len) [.copy offset len] := by
  have tagged : copyBytes offset len ≠ [] := by
    rw [copyBytes]
    split <;> exact List.cons_ne_nil _ _
  refine spells_element tagged fun rest => ?_
  rw [copyBytes]
  split
  · next short =>
    have shifted : offset >>> 8 = offset / 256 := Nat.shiftRight_eq_div_pow offset 8
    have tag : (byteOf (1 ||| (len - 4) <<< 2 ||| (offset >>> 8) <<< 5)).toNat = 1 + 4 * (len - 4) + 32 * (offset / 256) := by
      rw [shifted, or_group (a := 1) (k := 2) (by decide), or_group (k := 5) (by omega)]
      exact toNat_byteOf (by omega)
    have low : (byteOf (offset &&& 0xff)).toNat = offset % 256 := by
      rw [show offset &&& 0xff = offset % 256 from Nat.and_two_pow_sub_one_eq_mod offset 8]
      exact toNat_byteOf (by omega)
    have kind : (1 + 4 * (len - 4) + 32 * (offset / 256)) % 4 = 1 := by omega
    have extra : extraBytes (1 + 4 * (len - 4) + 32 * (offset / 256)) = 1 := by
      rw [extraBytes, kind]
      rfl
    rw [List.cons_append, readElement]
    simp only [tag, extra, kind]
    rw [if_neg (by simp), if_neg (by decide), if_pos trivial]
    simp only [List.singleton_append, List.take_succ_cons, List.take_zero, List.drop_succ_cons, List.drop_zero, ofLittle, low,
      Option.some.injEq, Prod.mk.injEq, Element.copy.injEq, and_true]
    omega
  · next long =>
    have tag : (byteOf (2 ||| (len - 1) <<< 2)).toNat = 2 + 4 * (len - 1) := by
      rw [or_group (a := 2) (k := 2) (by decide)]
      exact toNat_byteOf (by omega)
    have kind : (2 + 4 * (len - 1)) % 4 = 2 := by omega
    have extra : extraBytes (2 + 4 * (len - 1)) = 2 := by
      rw [extraBytes, kind]
      rfl
    have front : (toLittle 2 offset ++ rest).take 2 = toLittle 2 offset := List.take_left' (length_toLittle _ _)
    have back : (toLittle 2 offset ++ rest).drop 2 = rest := List.drop_left' (length_toLittle _ _)
    have fits : ofLittle (toLittle 2 offset) = offset := ofLittle_toLittle near
    rw [List.cons_append, readElement]
    simp only [tag, extra, kind, front, back, fits]
    rw [if_neg (by rw [List.length_append, length_toLittle]; omega), if_neg (by decide), if_neg (by decide)]
    simp only [Option.some.injEq, Prod.mk.injEq, Element.copy.injEq, and_true, true_and]
    omega

/-! ## Writing them -/

/-- What has been written is `front`. -/
structure Written (dest : Dest cap) (front : Bytes) : Prop where
  starts : front <+: dest.mem.bytes
  ends : dest.op = front.length

/-- A store at the output pointer. -/
theorem Written.store {dest : Dest cap} {front : Bytes} (data : Bytes) (written : Written dest front)
    (room : front.length + data.length ≤ cap) :
    ∃ mem, Snappy.store dest.mem dest.op data = .ok mem ∧ front ++ data <+: mem.bytes := by
  rw [written.ends]
  exact store_behind data written.starts room

theorem emitLiteral_spec {dest : Dest cap} {front : Bytes} {input : Buffer size} {literal len : Nat} {allowFastPath : Bool}
    (written : Written dest front) (some : 0 < len) (small : len ≤ 65536) (inside : literal + len ≤ size)
    (room : front.length + (literalHeader len).length + len ≤ cap)
    (margin : allowFastPath = true → literal + 16 ≤ size ∧ front.length + 17 ≤ cap) :
    ∃ dest', emitLiteral dest input literal len allowFastPath = .ok dest' ∧
      Written dest' (front ++ (literalHeader len ++ (input.bytes.drop literal).take len)) := by
  have sized := length_window input inside
  rw [emitLiteral]
  -- up to 60 bytes, the length is a part of the tag
  by_cases short : len - 1 < 60
  · have header : literalHeader len = [byteOf ((len - 1) <<< 2)] := if_pos short
    rw [header, List.length_singleton] at room
    obtain ⟨mem, stored, starts⟩ := written.store [byteOf ((len - 1) <<< 2)] (by simpa using by omega)
    have place : dest.op + 1 = (front ++ [byteOf ((len - 1) <<< 2)]).length := by simp [written.ends]
    simp only [if_pos short, stored, ok_bind, place]
    split
    · next fast =>
      obtain ⟨inside', room'⟩ := margin (by simpa using fast.1)
      have first : load input literal 8 = .ok _ := load_inside (by omega)
      have second : load input (literal + 8) 8 = .ok _ := load_inside (by omega)
      have sized1 := length_window input (show literal + 8 ≤ size by omega)
      have sized2 := length_window input (show literal + 8 + 8 ≤ size by omega)
      obtain ⟨mem1, stored1, starts1⟩ := store_behind ((input.bytes.drop literal).take 8) starts (by simpa using by omega)
      obtain ⟨mem2, stored2, starts2⟩ := store_behind ((input.bytes.drop (literal + 8)).take 8) starts1
        (by simp only [List.length_append, List.length_singleton]; omega)
      rw [List.length_append, sized1] at stored2
      simp only [first, second, ok_bind, stored1, stored2]
      refine ⟨_, rfl, List.IsPrefix.trans ?_ starts2, ?_⟩
      · -- what is copied too much is behind the literal
        have whole : (input.bytes.drop literal).take 8 ++ (input.bytes.drop (literal + 8)).take 8 =
            (input.bytes.drop literal).take 16 := by
          rw [← List.drop_drop, ← List.take_add]
        rw [header, List.append_assoc, List.append_assoc, whole, List.prefix_append_right_inj, List.prefix_append_right_inj]
        exact List.take_prefix_take_left (by omega)
      · simp only [header, List.length_append, sized, List.length_singleton]
        omega
    · rw [load_inside inside, ok_bind]
      obtain ⟨mem', stored', starts'⟩ := store_behind ((input.bytes.drop literal).take len) starts
        (by simp only [List.length_append, List.length_singleton]; omega)
      rw [stored', ok_bind]
      refine ⟨_, rfl, by rwa [header, ← List.append_assoc], ?_⟩
      simp only [header, List.length_append, sized, List.length_singleton]
      omega
  · have header : literalHeader len = byteOf ((59 + (lengthBytes 4 (len - 1)).length) <<< 2) :: lengthBytes 4 (len - 1) :=
      if_neg short
    have count : 1 ≤ (lengthBytes 4 (len - 1)).length ∧ (lengthBytes 4 (len - 1)).length ≤ 4 := by
      rw [(lengthBytes_eq (by omega) (by omega)).1, length_toLittle, lengthCount, if_neg short]
      split <;> omega
    obtain ⟨mem, stored, starts⟩ := written.store (literalHeader len) (by omega)
    obtain ⟨mem', stored', starts'⟩ := store_behind ((input.bytes.drop literal).take len) starts
      (by rw [List.length_append, sized]; omega)
    have place : dest.op + 1 + (lengthBytes 4 (len - 1)).length = (front ++ literalHeader len).length := by
      rw [header, List.length_append, List.length_cons, written.ends]
      omega
    rw [header] at stored
    simp only [if_neg short, check_holds count.1, check_holds count.2, ok_bind, stored, place, load_inside inside, stored']
    refine ⟨_, rfl, by rwa [← List.append_assoc], ?_⟩
    simp only [List.length_append, sized]
    omega

theorem length_copyBytes (offset len : Nat) : (copyBytes offset len).length ≤ 3 := by
  rw [copyBytes]
  split <;> simp

theorem emitCopyLessThan64_spec {dest : Dest cap} {front : Bytes} {offset : Nat} (len : Nat) (written : Written dest front)
    (least : 4 ≤ len) (most : len ≤ 64) (near : offset < 65536) (room : front.length + 3 ≤ cap) :
    ∃ dest', emitCopyLessThan64 dest offset len = .ok dest' ∧ Written dest' (front ++ copyBytes offset len) := by
  have short := length_copyBytes offset len
  obtain ⟨mem, stored, starts⟩ := written.store (copyBytes offset len) (by omega)
  rw [emitCopyLessThan64, check_holds most, check_holds least, check_holds near]
  simp only [ok_bind, stored]
  exact ⟨_, rfl, starts, by rw [List.length_append, written.ends]⟩

/-- Bytes that spell copies, which together repeat `len` items from `offset` items back. -/
structure SpellsCopy (offset len : Nat) (bytes : Bytes) (elements : List (Element UInt8)) : Prop where
  spells : Spells bytes elements
  short : 4 * bytes.length ≤ 3 * len
  repeats : ∀ out : Bytes, 0 < offset → offset ≤ out.length → expand out elements = some (copyBack offset len out)

theorem spellsCopy_one {offset : Nat} (len : Nat) (least : 4 ≤ len) (most : len ≤ 64) (near : offset < 65536) :
    SpellsCopy offset len (copyBytes offset len) [.copy offset len] where
  spells := spells_copy least most near
  short := by
    have short := length_copyBytes offset len
    omega
  repeats out positive back := by
    rw [expand_cons, expandOne, if_pos ⟨positive, back⟩]
    rfl

theorem SpellsCopy.append {offset m n : Nat} {bytes more : Bytes} {elements others : List (Element UInt8)}
    (first : SpellsCopy offset m bytes elements) (second : SpellsCopy offset n more others) :
    SpellsCopy offset (m + n) (bytes ++ more) (elements ++ others) where
  spells := first.spells.append second.spells
  short := by
    have short := first.short
    have short' := second.short
    rw [List.length_append]
    omega
  repeats out positive back := by
    rw [expand_append, first.repeats out positive back, Option.bind_some, copyBack_add]
    exact second.repeats _ positive (by rw [length_copyBack positive back]; omega)

theorem emitCopyLoop_spec {offset len fuel : Nat} {dest : Dest cap} {front : Bytes} (written : Written dest front)
    (least : 4 ≤ len) (near : offset < 65536) (room : 4 * front.length + 3 * len ≤ 4 * cap) (enough : len < fuel) :
    ∃ dest' left, emitCopyLoop offset fuel dest len = .ok (dest', left) ∧ 4 ≤ left ∧ left < 68 ∧
      ∃ bytes elements done, done + left = len ∧ Written dest' (front ++ bytes) ∧ SpellsCopy offset done bytes elements := by
  induction fuel generalizing dest front len with
  | zero => omega
  | succ fuel ih =>
    rw [emitCopyLoop]
    by_cases long : 68 ≤ len
    · obtain ⟨dest1, emitted, written1⟩ := emitCopyLessThan64_spec 64 written (by decide) (by decide) near (by omega)
      have one := spellsCopy_one 64 (by decide) (by decide) near
      have short := length_copyBytes offset 64
      obtain ⟨dest', left, looped, least', most', bytes, elements, done, sum, written', spells⟩ := @ih (len - 64) _ _ written1 (by omega)
        (by rw [List.length_append]; omega) (by omega)
      simp only [if_pos long, emitted, ok_bind]
      refine ⟨dest', left, looped, least', most', copyBytes offset 64 ++ bytes, _, 64 + done, by omega, ?_, one.append spells⟩
      rwa [← List.append_assoc]
    · simp only [if_neg long]
      refine ⟨dest, len, rfl, least, by omega, [], [], 0, by omega, by rwa [List.append_nil], ?_⟩
      exact ⟨spells_nil, Nat.zero_le _, fun out _ _ => rfl⟩

/-- A copy of any length is written in pieces of 4 to 64. -/
theorem emitCopy_spec {offset len : Nat} {dest : Dest cap} {front : Bytes} (written : Written dest front)
    (least : 4 ≤ len) (near : offset < 65536) (room : 4 * front.length + 3 * len ≤ 4 * cap) :
    ∃ dest' bytes elements, emitCopy dest offset len = .ok dest' ∧ Written dest' (front ++ bytes) ∧
      SpellsCopy offset len bytes elements := by
  obtain ⟨dest1, left, looped, least1, most1, bytes, elements, done, sum, written1, spells⟩ :=
    emitCopyLoop_spec written least near room (Nat.lt_succ_self len)
  have short := spells.short
  rw [emitCopy, looped, ok_bind]
  by_cases long : 64 < left
  · obtain ⟨dest2, emitted2, written2⟩ := emitCopyLessThan64_spec 60 written1 (by decide) (by decide) near
      (by rw [List.length_append]; omega)
    have one := spellsCopy_one 60 (by decide) (by decide) near
    have short2 := length_copyBytes offset 60
    -- five to seven bytes are left behind a copy of 60
    obtain ⟨dest3, emitted3, written3⟩ := emitCopyLessThan64_spec (left - 60) written2 (by omega) (by omega) near
      (by simp only [List.length_append]; omega)
    have last := spellsCopy_one (left - 60) (by omega) (by omega) near
    simp only [if_pos long, emitted2, ok_bind]
    refine ⟨dest3, bytes ++ copyBytes offset 60 ++ copyBytes offset (left - 60),
      elements ++ [.copy offset 60] ++ [.copy offset (left - 60)], emitted3, ?_, ?_⟩
    · rwa [← List.append_assoc, ← List.append_assoc]
    · rw [show len = done + 60 + (left - 60) by omega]
      exact (spells.append one).append last
  · obtain ⟨dest2, emitted2, written2⟩ := emitCopyLessThan64_spec left written1 least1 (by omega) near
      (by rw [List.length_append]; omega)
    simp only [if_neg long]
    refine ⟨dest2, bytes ++ copyBytes offset left, elements ++ [.copy offset left], emitted2, by rwa [← List.append_assoc], ?_⟩
    rw [← sum]
    exact spells.append (spellsCopy_one left least1 (by omega) near)

end Rsvndump.Snappy
