import Rsvndump.Snappy.Compressed

/-! A fragment of the input, compressed.

The elements written so far expand to the input up to `next_emit`. The table holds
positions before the current one, and an element that is complete has saved at least
five sixths of a byte against seven bytes for each six.
-/

set_option autoImplicit false

namespace Rsvndump.Snappy

open Library

variable {size cap : Nat} {input : Buffer size}

/-! ## Hashes -/

/-- A table of 256 to 16384 entries and its shift, where every entry is below `limit`. -/
structure HashTable (table : List Nat) (shift limit : Nat) : Prop where
  sized : ∃ bits ≤ 32, table.length = 2 ^ bits ∧ shift = 32 - bits
  entries : ∀ entry ∈ table, entry < limit

theorem HashTable.mono {table : List Nat} {shift limit limit' : Nat} (valid : HashTable table shift limit) (more : limit ≤ limit') :
    HashTable table shift limit' where
  sized := valid.sized
  entries entry found := Nat.lt_of_lt_of_le (valid.entries entry found) more

theorem HashTable.inside {table : List Nat} {shift limit : Nat} (valid : HashTable table shift limit) (bytes : Nat) :
    hashBytes bytes shift < table.length := by
  obtain ⟨bits, few, sized, shifted⟩ := valid.sized
  have power : 2 ^ bits * 2 ^ (32 - bits) = 4294967296 := by
    rw [← Nat.pow_add, Nat.add_sub_cancel' few]
  rw [hashBytes, Nat.shiftRight_eq_div_pow, sized, shifted, Nat.div_lt_iff_lt_mul (Nat.two_pow_pos _), power]
  exact Nat.mod_lt _ (by decide)

theorem HashTable.lookup {table : List Nat} {shift limit : Nat} (valid : HashTable table shift limit) (bytes : Nat) :
    ∃ candidate, tableAt table (hashBytes bytes shift) = .ok candidate ∧ candidate < limit := by
  have inside := valid.inside bytes
  refine ⟨table[hashBytes bytes shift], ?_, valid.entries _ (List.getElem_mem inside)⟩
  rw [tableAt, List.getElem?_eq_getElem inside]
  rfl

/-- A position is entered that a `u16` can hold. -/
theorem HashTable.insert {table : List Nat} {shift limit value : Nat} (valid : HashTable table shift limit) (bytes : Nat)
    (below : value < limit) (small : limit ≤ 65536) :
    ∃ table', tableSet table (hashBytes bytes shift) value = .ok table' ∧ HashTable table' shift limit := by
  have inside := valid.inside bytes
  rw [tableSet, if_pos inside, Nat.mod_eq_of_lt (by omega)]
  refine ⟨_, rfl, by rw [List.length_set]; exact valid.sized, fun entry found => ?_⟩
  rcases List.mem_or_eq_of_mem_set found with old | rfl
  · exact valid.entries entry old
  · exact below

/-- The number in the four bytes at a place. -/
def wordAt (input : Buffer size) (p : Nat) : Nat := ofLittle ((input.bytes.drop p).take 4)

theorem load32_wordAt {p : Nat} (inside : p + 4 ≤ size) : load32 input p = .ok (wordAt input p) := load32_inside inside

theorem hash_wordAt {p shift : Nat} (inside : p + 4 ≤ size) : hash input p shift = .ok (hashBytes (wordAt input p) shift) := by
  rw [hash, load32_wordAt inside]
  rfl

/-- A field of a word is the word that is loaded there. -/
theorem getU32AtOffset_eq (p : Nat) {offset : Nat} (small : offset ≤ 4) :
    getU32AtOffset (ofLittle ((input.bytes.drop p).take 8)) offset = wordAt input (p + offset) := by
  have power : 2 ^ (8 * offset) = 256 ^ offset := by
    rw [show 256 = 2 ^ 8 from rfl, ← Nat.pow_mul]
  rw [getU32AtOffset, Nat.shiftRight_eq_div_pow, power, show 4294967296 = 256 ^ 4 from rfl, ofLittle_field]
  rw [wordAt, List.drop_take, List.drop_drop, List.take_take, Nat.min_eq_left (by omega)]

theorem same_bytes {p q : Nat} (inside : p + 4 ≤ size) (inside' : q + 4 ≤ size)
    (same : wordAt input p = wordAt input q) :
    ∀ i < 4, input.bytes[p + i]? = input.bytes[q + i]? := by
  intro i below
  have windows := ofLittle_injective ((length_window input inside).trans (length_window input inside').symm) same
  rw [← getElem?_window below, ← getElem?_window below, windows]

/-! ## What is written -/

/-- Elements that expand to the input up to `place` have been written in `spent` bytes behind `front`. -/
def Encodes (input : Buffer size) (front : Bytes) (dest : Dest cap) (place spent : Nat) : Prop :=
  ∃ bytes elements, Written dest (front ++ bytes) ∧ bytes.length = spent ∧ Spells bytes elements ∧
    expand [] elements = some (input.bytes.take place)

section Elements

variable {front : Bytes} {dest : Dest cap} {place spent len : Nat} (encoded : Encodes input front dest place spent)

include encoded

theorem Encodes.literal {allowFastPath : Bool} (some : 0 < len) (small : len ≤ 65536) (inside : place + len ≤ size)
    (room : front.length + spent + 3 + len ≤ cap)
    (margin : allowFastPath = true → place + 16 ≤ size ∧ front.length + spent + 17 ≤ cap) :
    ∃ dest', emitLiteral dest input place len allowFastPath = .ok dest' ∧
      Encodes input front dest' (place + len) (spent + (1 + lengthCount (len - 1)) + len) := by
  obtain ⟨bytes, elements, written, sized, spells, made⟩ := encoded
  have header := length_literalHeader small
  have few : lengthCount (len - 1) ≤ 2 := by
    unfold lengthCount
    split_ifs <;> omega
  have text := length_window input inside
  have margin' : allowFastPath = true → place + 16 ≤ size ∧ (front ++ bytes).length + 17 ≤ cap := by
    rw [List.length_append, sized]
    exact margin
  obtain ⟨dest', emitted, written'⟩ := emitLiteral_spec written some small inside (by rw [List.length_append]; omega) margin'
  have literal : Spells (literalHeader ((input.bytes.drop place).take len).length ++ _) _ := spells_literal (by omega) (by omega)
  rw [text] at literal
  refine ⟨dest', emitted, _, _, by rwa [← List.append_assoc], ?_, spells.append literal, ?_⟩
  · simp only [List.length_append, sized, header, text]
    omega
  · rw [expand_append, made, Option.bind_some, List.take_add]
    rfl

theorem Encodes.copy {candidate : Nat} (least : 4 ≤ len) (before : candidate < place) (small : size ≤ 65536)
    (inside : place + len ≤ size) (same : ∀ i < len, input.bytes[candidate + i]? = input.bytes[place + i]?)
    (room : 4 * (front.length + spent) + 3 * len ≤ 4 * cap) :
    ∃ dest' spent', emitCopy dest (place - candidate) len = .ok dest' ∧ Encodes input front dest' (place + len) spent' ∧
      4 * spent' ≤ 4 * spent + 3 * len := by
  obtain ⟨bytes, elements, written, sized, spells, made⟩ := encoded
  have whole := input.sized
  have near : place - candidate < 65536 := by omega
  obtain ⟨dest', more, others, emitted, written', copied⟩ := emitCopy_spec written least near (by rw [List.length_append]; omega)
  have short := copied.short
  refine ⟨dest', spent + more.length, emitted, ⟨bytes ++ more, elements ++ others, ?_, ?_, spells.append copied.spells, ?_⟩, by omega⟩
  · rwa [← List.append_assoc]
  · rw [List.length_append, sized]
  · rw [expand_append, made, Option.bind_some, copied.repeats _ (by omega) (by rw [List.length_take]; omega)]
    refine congrArg Option.some (copyBack_eq_take (by omega) (by omega) (by omega) fun i below => ?_)
    rw [show place + i - (place - candidate) = candidate + i by omega]
    exact same i below

end Elements

/-! ## Loops -/

section Loops

variable {shift : Nat} (block : size ≤ 32768)

include block

/-- Step 1: what is found is a match of four bytes at a place that is not near the end. -/
theorem scanLoop_spec {fuel skip nextIp : Nat} {table : List Nat} (valid : HashTable table shift nextIp)
    (inside : nextIp + 4 ≤ size) (steps : 32 ≤ skip) (enough : size < nextIp + fuel) :
    scanLoop input (size - 15) shift fuel skip nextIp (hashBytes (wordAt input nextIp) shift) table = .ok none ∨
    ∃ ip candidate table', scanLoop input (size - 15) shift fuel skip nextIp (hashBytes (wordAt input nextIp) shift) table =
        .ok (some (ip, candidate, table')) ∧ nextIp ≤ ip ∧ ip + 15 < size ∧ candidate < ip ∧ HashTable table' shift (ip + 1) ∧
      wordAt input candidate = wordAt input ip := by
  induction fuel generalizing skip nextIp table with
  | zero => omega
  | succ fuel ih =>
    have step : 1 ≤ skip >>> 5 := by
      rw [Nat.shiftRight_eq_div_pow]
      omega
    rw [scanLoop, hash_wordAt inside, ok_bind, check_holds rfl, ok_bind]
    by_cases exhausted : size - 15 < nextIp + skip >>> 5
    · exact .inl (if_pos exhausted)
    · obtain ⟨candidate, looked, before⟩ := valid.lookup (wordAt input nextIp)
      obtain ⟨table', entered, valid'⟩ := (valid.mono (Nat.le_succ nextIp)).insert (wordAt input nextIp) (Nat.lt_succ_self nextIp)
        (by omega)
      have next : nextIp + skip >>> 5 + 4 ≤ size := by omega
      simp only [if_neg exhausted, hash_wordAt next, ok_bind, looked, check_holds before, entered, load32_wordAt inside,
        load32_wordAt (show candidate + 4 ≤ size by omega)]
      by_cases same : wordAt input nextIp = wordAt input candidate
      · refine .inr ⟨nextIp, candidate, table', ?_, Nat.le_refl _, by omega, before, valid', same.symm⟩
        rw [if_neg (not_not_intro same), pure_eq_ok]
      · rw [if_pos same]
        rcases @ih (skip + 1) _ _ (valid'.mono (by omega)) next (by omega) (by omega) with
          none | ⟨ip, candidate', table'', found, later, rest⟩
        · exact .inl none
        · exact .inr ⟨ip, candidate', table'', found, by omega, rest⟩

variable {front : Bytes} (room : 6 * front.length + 7 * size + 120 ≤ 6 * cap)

include room

/-- Step 3: after the copies the elements are complete. -/
theorem copyLoop_spec {fuel ip candidate spent : Nat} {dest : Dest cap} {table : List Nat}
    (valid : HashTable table shift (ip + 1)) (inside : ip + 4 ≤ size) (before : candidate < ip)
    (same : wordAt input candidate = wordAt input ip) (encoded : Encodes input front dest ip spent)
    (saved : 6 * spent ≤ 7 * ip + 5) (enough : size < ip + fuel) :
    ∃ dest' nextEmit more spent', copyLoop input (size - 15) shift fuel ip candidate dest table = .ok (dest', nextEmit, more) ∧
      ip < nextEmit ∧ nextEmit ≤ size ∧ Encodes input front dest' nextEmit spent' ∧ 6 * spent' + 5 ≤ 7 * nextEmit ∧
      (more = none ∨ ∃ table', more = some (nextEmit, ofLittle ((input.bytes.drop (nextEmit - 1)).take 8), table') ∧
        nextEmit + 15 < size ∧ HashTable table' shift (nextEmit + 1)) := by
  induction fuel generalizing ip candidate dest table spent with
  | zero => omega
  | succ fuel ih =>
    obtain ⟨count, counted, longest⟩ := findMatchLength_spec input (show candidate + 4 ≤ ip + 4 by omega) (Nat.le_refl size) inside
    have matching := LongestMatch.extend (same_bytes (by omega) inside same) longest
    have inside' : ip + (4 + count) ≤ size := matching.inside
    have windows : (input.bytes.drop ip).take (4 + count) = (input.bytes.drop candidate).take (4 + count) := by
      refine List.ext_getElem? fun i => ?_
      by_cases below : i < 4 + count
      · rw [getElem?_window below, getElem?_window below, matching.same i below]
      · rw [List.getElem?_eq_none (by rw [length_window input inside']; omega),
          List.getElem?_eq_none (by rw [length_window input (by omega)]; omega)]
    obtain ⟨dest1, spent1, emitted, encoded1, cost⟩ := encoded.copy (by omega) before (by omega) inside' matching.same (by omega)
    rw [copyLoop, counted, ok_bind]
    dsimp only
    rw [load_inside inside', ok_bind, load_inside (by omega), ok_bind, check_holds windows, ok_bind, emitted, ok_bind]
    by_cases exhausted : size - 15 ≤ ip + (4 + count)
    · rw [if_pos exhausted]
      exact ⟨dest1, ip + (4 + count), none, spent1, rfl, by omega, inside', encoded1, by omega, .inl rfl⟩
    · have tail : ip + (4 + count) - 1 + 8 ≤ size := by omega
      have place : ip + (4 + count) - 1 + 1 = ip + (4 + count) := by omega
      obtain ⟨table1, entered1, valid1⟩ := (valid.mono (show ip + 1 ≤ ip + (4 + count) by omega)).insert
        (wordAt input (ip + (4 + count) - 1 + 0)) (show ip + (4 + count) - 1 < ip + (4 + count) by omega) (by omega)
      obtain ⟨candidate', looked, before'⟩ := valid1.lookup (wordAt input (ip + (4 + count) - 1 + 1))
      obtain ⟨table2, entered2, valid2⟩ := (valid1.mono (Nat.le_succ _)).insert (wordAt input (ip + (4 + count) - 1 + 1))
        (Nat.lt_succ_self (ip + (4 + count))) (by omega)
      rw [if_neg exhausted, load64_inside tail, ok_bind, getU32AtOffset_eq _ (Nat.zero_le 4), entered1, ok_bind,
        getU32AtOffset_eq _ (by decide : 1 ≤ 4), looked, ok_bind, load32_wordAt (by omega), ok_bind, entered2, ok_bind, place]
      split
      · next again =>
        obtain ⟨dest', nextEmit, more, spent', copied, later, rest⟩ := ih valid2 (by omega) before' again.symm encoded1 (by omega)
          (by omega)
        exact ⟨dest', nextEmit, more, spent', copied, by omega, rest⟩
      · exact ⟨dest1, ip + (4 + count), _, spent1, rfl, by omega, inside', encoded1, by omega,
          .inr ⟨table2, rfl, by omega, valid2⟩⟩

/-- The main loop keeps to complete elements. -/
theorem fragmentLoop_spec {fuel ip nextEmit spent : Nat} {dest : Dest cap} {table : List Nat} (valid : HashTable table shift ip)
    (inside : ip + 4 ≤ size) (before : nextEmit < ip) (encoded : Encodes input front dest nextEmit spent)
    (saved : 6 * spent + 5 ≤ 7 * nextEmit ∨ nextEmit = 0 ∧ spent = 0) (enough : size < ip + fuel) :
    ∃ dest' nextEmit' spent', fragmentLoop input (size - 15) shift fuel ip nextEmit (hashBytes (wordAt input ip) shift) dest table =
        .ok (dest', nextEmit') ∧ nextEmit' ≤ size ∧ Encodes input front dest' nextEmit' spent' ∧
      (6 * spent' + 5 ≤ 7 * nextEmit' ∨ nextEmit' = 0 ∧ spent' = 0) := by
  induction fuel generalizing ip nextEmit dest table spent with
  | zero => omega
  | succ fuel ih =>
    rw [fragmentLoop, check_holds before, ok_bind]
    rcases scanLoop_spec block valid inside (Nat.le_refl 32) (by omega : size < ip + size) with
      none | ⟨ip', candidate, table', found, later, far, behind, valid', same⟩
    · rw [none]
      exact ⟨dest, nextEmit, spent, rfl, by omega, encoded, saved⟩
    · have some : 0 < ip' - nextEmit := by omega
      have margin : true = true → nextEmit + 16 ≤ size ∧ front.length + spent + 17 ≤ cap := fun _ => ⟨by omega, by omega⟩
      obtain ⟨dest1, emitted, encoded1⟩ := encoded.literal some (by omega) (by omega) (by omega) margin
      have place : nextEmit + (ip' - nextEmit) = ip' := by omega
      -- a literal costs at most five sixths of a byte more than its share
      have cost : 6 * (1 + lengthCount (ip' - nextEmit - 1)) ≤ ip' - nextEmit + 5 := by
        unfold lengthCount
        split_ifs <;> omega
      rw [place] at encoded1
      obtain ⟨dest2, nextEmit2, more, spent2, copied, later2, inside2, encoded2, saved2, rest⟩ := copyLoop_spec block room valid'
        (by omega) behind same encoded1 (by omega) (show size < ip' + size by omega)
      simp only [found, ok_bind, check_holds (show nextEmit + 16 ≤ size by omega), emitted, copied]
      rcases rest with rfl | ⟨table2, rfl, far2, valid2⟩
      · exact ⟨dest2, nextEmit2, spent2, rfl, inside2, encoded2, .inl saved2⟩
      · have next : nextEmit2 - 1 + 2 = nextEmit2 + 1 := by omega
        dsimp only
        rw [getU32AtOffset_eq _ (by decide), next]
        exact ih valid2 (by omega) (by omega) encoded2 (.inl saved2) (by omega)

end Loops

/-! ## Fragments -/

theorem tableSize_pow (inputSize : Nat) {fuel bits : Nat} (sum : bits + fuel = 14) :
    ∃ bits', bits ≤ bits' ∧ bits' ≤ 14 ∧ tableSize inputSize fuel (2 ^ bits) = 2 ^ bits' := by
  induction fuel generalizing bits with
  | zero => exact ⟨bits, Nat.le_refl _, by omega, rfl⟩
  | succ fuel ih =>
    rw [tableSize]
    split
    · rw [Nat.shiftLeft_eq, ← Nat.pow_add]
      obtain ⟨bits', more, few, doubled⟩ := @ih (bits + 1) (by omega)
      exact ⟨bits', by omega, few, doubled⟩
    · exact ⟨bits, Nat.le_refl _, by omega, rfl⟩

theorem getHashTable_spec (inputSize : Nat) :
    ∃ bits, 8 ≤ bits ∧ bits ≤ 14 ∧ getHashTable inputSize = .ok (List.replicate (2 ^ bits) 0) := by
  obtain ⟨bits, least, most, sized⟩ := tableSize_pow inputSize (show 8 + 6 = 14 from rfl)
  have power : 2 ^ bits &&& 2 ^ bits - 1 = 0 := by
    rw [Nat.and_two_pow_sub_one_eq_mod, Nat.mod_self]
  have bound : 2 ^ bits ≤ 16384 := Nat.pow_le_pow_right (n := 2) (by decide) most
  rw [show 2 ^ 8 = 256 from rfl] at sized
  refine ⟨bits, least, most, ?_⟩
  rw [getHashTable, sized, check_holds power, check_holds bound]
  rfl

/-- The bytes behind the last copy are a literal. -/
theorem remainder_spec {front : Bytes} {dest : Dest cap} {nextEmit spent : Nat} (block : size ≤ 32768)
    (room : 6 * front.length + 7 * size + 120 ≤ 6 * cap) (inside : nextEmit ≤ size) (encoded : Encodes input front dest nextEmit spent)
    (saved : 6 * spent + 5 ≤ 7 * nextEmit ∨ nextEmit = 0 ∧ spent = 0) :
    ∃ dest' spent', (if nextEmit < size then emitLiteral dest input nextEmit (size - nextEmit) false else .ok dest) = .ok dest' ∧
      Encodes input front dest' size spent' ∧ 6 * spent' ≤ 7 * size + 5 ∧ (6 ≤ size → 6 * spent' ≤ 7 * size) := by
  by_cases more : nextEmit < size
  · have cost : 6 * (1 + lengthCount (size - nextEmit - 1)) ≤ size - nextEmit + 5 ∧
        (6 ≤ size - nextEmit → 6 * (1 + lengthCount (size - nextEmit - 1)) ≤ size - nextEmit) := by
      unfold lengthCount
      split_ifs <;> omega
    have some : 0 < size - nextEmit := by omega
    have margin : false = true → nextEmit + 16 ≤ size ∧ front.length + spent + 17 ≤ cap := fun fast => by cases fast
    obtain ⟨dest', emitted, encoded'⟩ := encoded.literal some (by omega) (by omega) (by omega) margin
    rw [show nextEmit + (size - nextEmit) = size by omega] at encoded'
    rw [if_pos more]
    exact ⟨dest', _, emitted, encoded', by omega, by omega⟩
  · have whole : nextEmit = size := by omega
    rw [whole] at encoded saved
    rw [if_neg more]
    exact ⟨dest, spent, rfl, encoded, by omega, by omega⟩

/-- A fragment is written whole, in seven bytes for each six and one more. -/
theorem compressFragment_spec {front : Bytes} {dest : Dest cap} {bits : Nat} (input : Buffer size) (block : size ≤ 32768) (few : bits ≤ 14)
    (written : Written dest front) (room : 6 * front.length + 7 * size + 120 ≤ 6 * cap) :
    ∃ dest' spent, compressFragment input dest (List.replicate (2 ^ bits) 0) = .ok dest' ∧
      Encodes input front dest' size spent ∧ 6 * spent ≤ 7 * size + 5 ∧ (6 ≤ size → 6 * spent ≤ 7 * size) := by
  have power : 2 ^ bits &&& 2 ^ bits - 1 = 0 := by
    rw [Nat.and_two_pow_sub_one_eq_mod, Nat.mod_self]
  have shift : 4294967295 >>> (32 - bits) = 2 ^ bits - 1 := by
    have whole : 4294967296 = 2 ^ bits * 2 ^ (32 - bits) := by
      rw [← Nat.pow_add, Nat.add_sub_cancel' (by omega)]
    have positive : 0 < 2 ^ (32 - bits) * 2 ^ bits := Nat.mul_pos (Nat.two_pow_pos _) (Nat.two_pow_pos _)
    rw [Nat.shiftRight_eq_div_pow, show 4294967295 = 4294967296 - 1 from rfl, whole, Nat.mul_comm, Nat.mul_sub_div 0 _ _ positive,
      Nat.zero_div]
  have valid : HashTable (List.replicate (2 ^ bits) 0) (32 - bits) 1 := by
    refine ⟨⟨bits, by omega, List.length_replicate, rfl⟩, fun entry found => ?_⟩
    rw [List.eq_of_mem_replicate found]
    exact Nat.one_pos
  have nothing : Encodes input front dest 0 0 := ⟨[], [], by rwa [List.append_nil], rfl, spells_nil, rfl⟩
  rw [compressFragment]
  simp only [List.length_replicate, Nat.log2_two_pow, check_holds block, check_holds power, check_holds shift, ok_bind]
  by_cases long : 15 ≤ size
  · obtain ⟨dest1, nextEmit, spent, looped, inside, encoded, saved⟩ := fragmentLoop_spec block room valid (by omega) Nat.one_pos
      nothing (.inr ⟨rfl, rfl⟩) (show size < 1 + size by omega)
    rw [if_pos long, hash_wordAt (by omega), ok_bind, looped, ok_bind]
    exact remainder_spec block room inside encoded saved
  · rw [if_neg long]
    exact remainder_spec block room (Nat.zero_le size) nothing (.inr ⟨rfl, rfl⟩)

end Rsvndump.Snappy
