import Rsvndump.Library.Buffer
import Rsvndump.Library.Lz77
import Rsvndump.Library.LittleEndian
import Rsvndump.Library.Result

/-! Words in memory, as snappy.c compares and moves them.

Every access is checked. A pointer is an index into the memory it points into.
-/

set_option autoImplicit false

namespace Rsvndump.Snappy

open Library

inductive SnappyError where
  /-- An access that is not inside the memory. -/
  | outside
  /-- A `CHECK` or `DCHECK` that does not hold. -/
  | assertion
  /-- A loop that is not done after the rounds it has been given. -/
  | rounds
  deriving DecidableEq, Repr

variable {size : Nat}

def load (mem : Buffer size) (p count : Nat) : Except SnappyError Bytes := orError .outside (mem.load p count)

def store (mem : Buffer size) (p : Nat) (data : Bytes) : Except SnappyError (Buffer size) :=
  orError .outside (mem.store p data)

def check (cond : Prop) [Decidable cond] : Except SnappyError Unit := if cond then .ok () else .error .assertion

/-- `UNALIGNED_LOAD32`, on a little-endian machine. -/
def load32 (mem : Buffer size) (p : Nat) : Except SnappyError Nat := do return ofLittle (← load mem p 4)

/-- `UNALIGNED_LOAD64` -/
def load64 (mem : Buffer size) (p : Nat) : Except SnappyError Nat := do return ofLittle (← load mem p 8)

/-- `UNALIGNED_STORE64(op, UNALIGNED_LOAD64(src))` -/
def copy64 (mem : Buffer size) (src op : Nat) : Except SnappyError (Buffer size) := do store mem op (← load mem src 8)

/-! ## Matches -/

/-- The first loop of `find_match_length`: the length if it has been found, else where the words end. -/
def findMatchWords (input : Buffer size) (s1 s2Limit : Nat) : Nat → Nat → Nat → Except SnappyError (Nat ⊕ Nat × Nat)
  | 0, _, _ => .error .rounds
  | fuel + 1, s2, matched => do
      if s2 + 8 ≤ s2Limit then
        let word ← load64 input s2
        let other ← load64 input (s1 + matched)
        if word = other then findMatchWords input s1 s2Limit fuel (s2 + 8) (matched + 8)
        else
          -- `find_lsb_set_non_zero64`
          let matchingBits := lowestBit 64 (word ^^^ other)
          return .inl (matched + matchingBits >>> 3)
      else return .inr (s2, matched)

/-- The second loop of `find_match_length`. -/
def findMatchBytes (input : Buffer size) (s1 s2Limit : Nat) : Nat → Nat → Nat → Except SnappyError Nat
  | 0, _, _ => .error .rounds
  | fuel + 1, s2, matched => do
      if s2 < s2Limit then
        let byte ← load input (s1 + matched) 1
        let other ← load input s2 1
        if byte = other then findMatchBytes input s1 s2Limit fuel (s2 + 1) (matched + 1)
        else return matched
      else return matched

def findMatchLength (input : Buffer size) (s1 s2 s2Limit : Nat) : Except SnappyError Nat := do
  check (s2 ≤ s2Limit)
  match ← findMatchWords input s1 s2Limit (s2Limit - s2 + 1) s2 0 with
  | .inl matched => return matched
  | .inr (s2, matched) => findMatchBytes input s1 s2Limit (s2Limit - s2 + 1) s2 matched

/-! ## Copies -/

/-- The loop of `incremental_copy`. -/
def incrementalCopyLoop (mem : Buffer size) (src op : Nat) : Nat → Except SnappyError (Buffer size)
  | 0 => .ok mem
  | len + 1 => do
      let mem ← store mem op (← load mem src 1)
      incrementalCopyLoop mem (src + 1) (op + 1) len

def incrementalCopy (mem : Buffer size) (src op len : Nat) : Except SnappyError (Buffer size) := do
  check (0 < len)
  incrementalCopyLoop mem src op len

/-- The first loop of `incremental_copy_fast_path`, which makes a short pattern longer. -/
def expandPattern (src : Nat) : Nat → Buffer size → Nat → Int → Except SnappyError (Buffer size × Nat × Int)
  | 0, _, _, _ => .error .rounds
  | fuel + 1, mem, op, len => do
      if op - src < 8 then
        let mem ← copy64 mem src op
        expandPattern src fuel mem (op + (op - src)) (len - (op - src : Nat))
      else return (mem, op, len)

/-- The second loop of `incremental_copy_fast_path`. -/
def copyWords : Nat → Buffer size → Nat → Nat → Int → Except SnappyError (Buffer size)
  | 0, _, _, _, _ => .error .rounds
  | fuel + 1, mem, src, op, len => do
      if 0 < len then
        let mem ← copy64 mem src op
        copyWords fuel mem (src + 8) (op + 8) (len - 8)
      else return mem

def incrementalCopyFastPath (mem : Buffer size) (src op len : Nat) : Except SnappyError (Buffer size) := do
  let (mem, op, rest) ← expandPattern src 4 mem op len
  copyWords (len + 1) mem src op rest

/-! ## Accesses inside the memory -/

variable {mem : Buffer size} {front data : Bytes}

theorem load_inside {p count : Nat} (inside : p + count ≤ size) :
    load mem p count = .ok ((mem.bytes.drop p).take count) := by
  rw [load, Buffer.load, if_pos (by omega), Int.toNat_natCast]
  rfl

theorem load32_inside {p : Nat} (inside : p + 4 ≤ size) :
    load32 mem p = .ok (ofLittle ((mem.bytes.drop p).take 4)) := by
  rw [load32, load_inside inside]
  rfl

theorem load64_inside {p : Nat} (inside : p + 8 ≤ size) :
    load64 mem p = .ok (ofLittle ((mem.bytes.drop p).take 8)) := by
  rw [load64, load_inside inside]
  rfl

theorem store_inside {p : Nat} (inside : p + data.length ≤ size) :
    ∃ mem', store mem p data = .ok mem' ∧ mem'.bytes = mem.bytes.take p ++ data ++ mem.bytes.drop (p + data.length) := by
  refine ⟨_, by rw [store, Buffer.store, dif_pos (by omega)]; rfl, ?_⟩
  rfl

/-- Data is written behind what is known of the memory. -/
theorem store_behind (data : Bytes) (starts : front <+: mem.bytes) (room : front.length + data.length ≤ size) :
    ∃ mem', store mem front.length data = .ok mem' ∧ front ++ data <+: mem'.bytes := by
  obtain ⟨mem', stored, starts'⟩ := Buffer.store_front front.length data starts rfl room
  exact ⟨mem', by rw [store, stored]; rfl, starts'⟩

theorem length_window (mem : Buffer size) {p count : Nat} (inside : p + count ≤ size) : ((mem.bytes.drop p).take count).length = count := by
  have sized := mem.sized
  rw [List.length_take, List.length_drop]
  omega

theorem getElem?_window {p count i : Nat} (below : i < count) : ((mem.bytes.drop p).take count)[i]? = mem.bytes[p + i]? := by
  rw [List.getElem?_take_of_lt below, List.getElem?_drop]

theorem check_holds {cond : Prop} [Decidable cond] (holds : cond) : check cond = .ok () := if_pos holds

/-! ## The longest match -/

/-- The bytes from `s1` and from `s2` on agree for `matched` places and not for one more before the limit. -/
structure LongestMatch (bytes : Bytes) (s1 s2 s2Limit matched : Nat) : Prop where
  inside : s2 + matched ≤ s2Limit
  same : ∀ i < matched, bytes[s1 + i]? = bytes[s2 + i]?
  ends : s2 + matched < s2Limit → bytes[s1 + matched]? ≠ bytes[s2 + matched]?

/-- A longer match from a part of it. -/
theorem LongestMatch.extend {bytes : Bytes} {s1 s2 s2Limit done matched : Nat} (same : ∀ i < done, bytes[s1 + i]? = bytes[s2 + i]?)
    (rest : LongestMatch bytes (s1 + done) (s2 + done) s2Limit matched) : LongestMatch bytes s1 s2 s2Limit (done + matched) where
  inside := by
    have inside := rest.inside
    omega
  same i below := by
    by_cases early : i < done
    · exact same i early
    · have late := rest.same (i - done) (by omega)
      rwa [show s1 + done + (i - done) = s1 + i by omega, show s2 + done + (i - done) = s2 + i by omega] at late
  ends before := by
    have ends := rest.ends (by omega)
    rwa [Nat.add_assoc, Nat.add_assoc] at ends

section Match

variable (input : Buffer size) {s1 s2 s2Limit : Nat} (before : s1 ≤ s2) (within : s2Limit ≤ size)

include before within

theorem findMatchBytes_spec {fuel matched : Nat} (left : s2 + matched ≤ s2Limit) (enough : s2Limit < s2 + matched + fuel) :
    ∃ more, findMatchBytes input s1 s2Limit fuel (s2 + matched) matched = .ok (matched + more) ∧
      LongestMatch input.bytes (s1 + matched) (s2 + matched) s2Limit more := by
  induction fuel generalizing matched with
  | zero => omega
  | succ fuel ih =>
    by_cases more : s2 + matched < s2Limit
    · have bytes := input.sized
      have first : load input (s1 + matched) 1 = .ok _ := load_inside (by omega)
      have second : load input (s2 + matched) 1 = .ok _ := load_inside (by omega)
      rw [List.drop_eq_getElem_cons (by omega), List.take_succ_cons, List.take_zero] at first second
      rw [findMatchBytes]
      simp only [if_pos more, first, second, ok_bind]
      by_cases same : input.bytes[s1 + matched] = input.bytes[s2 + matched]
      · have same' : input.bytes[s1 + matched]? = input.bytes[s2 + matched]? := by
          rw [List.getElem?_eq_getElem (by omega), List.getElem?_eq_getElem (by omega), same]
        obtain ⟨count, found, longest⟩ := @ih (matched + 1) (by omega) (by omega)
        rw [if_pos (by rw [same]), Nat.add_assoc s2, found]
        refine ⟨1 + count, by rw [Nat.add_assoc], LongestMatch.extend ?_ (by rwa [Nat.add_assoc, Nat.add_assoc])⟩
        intro i below
        rwa [show i = 0 by omega]
      · rw [if_neg (by simpa using same)]
        refine ⟨0, rfl, by omega, fun i below => absurd below (Nat.not_lt_zero i), fun _ => ?_⟩
        rw [Nat.add_zero, Nat.add_zero, List.getElem?_eq_getElem (by omega), List.getElem?_eq_getElem (by omega)]
        simpa using same
    · rw [findMatchBytes]
      simp only [if_neg more]
      exact ⟨0, rfl, by omega, fun i below => absurd below (Nat.not_lt_zero i), fun inside => by omega⟩

/-- The words are compared until one differs, whose lowest differing bit gives the length, or until fewer than eight
bytes are left. -/
theorem findMatchWords_spec {fuel matched : Nat} (left : s2 + matched ≤ s2Limit) (enough : s2Limit < s2 + matched + fuel) :
    (∃ more, findMatchWords input s1 s2Limit fuel (s2 + matched) matched = .ok (.inl (matched + more)) ∧
      LongestMatch input.bytes (s1 + matched) (s2 + matched) s2Limit more) ∨
    ∃ more, findMatchWords input s1 s2Limit fuel (s2 + matched) matched = .ok (.inr (s2 + (matched + more), matched + more)) ∧
      s2 + (matched + more) ≤ s2Limit ∧ ∀ i < more, input.bytes[s1 + matched + i]? = input.bytes[s2 + matched + i]? := by
  induction fuel generalizing matched with
  | zero => omega
  | succ fuel ih =>
    by_cases word : s2 + matched + 8 ≤ s2Limit
    · have inside : s1 + matched + 8 ≤ size := by omega
      have inside' : s2 + matched + 8 ≤ size := by omega
      have first : load64 input (s2 + matched) = .ok _ := load64_inside inside'
      have second : load64 input (s1 + matched) = .ok _ := load64_inside inside
      have sized := length_window input inside'
      have sized' := length_window input inside
      rw [findMatchWords]
      simp only [if_pos word, first, second, ok_bind]
      split
      · next same =>
        have same' := ofLittle_injective (sized.trans sized'.symm) same
        have agree : ∀ i < 8, input.bytes[s1 + matched + i]? = input.bytes[s2 + matched + i]? := by
          intro i below
          rw [← getElem?_window below, ← getElem?_window below, same']
        rcases @ih (matched + 8) (by omega) (by omega) with ⟨more, found, longest⟩ | ⟨more, found, inside, rest⟩
        · refine .inl ⟨8 + more, ?_, LongestMatch.extend agree (by rwa [Nat.add_assoc, Nat.add_assoc])⟩
          rw [Nat.add_assoc s2, found, Nat.add_assoc]
        · refine .inr ⟨8 + more, by rw [Nat.add_assoc s2, found, Nat.add_assoc], by omega, fun i below => ?_⟩
          by_cases early : i < 8
          · exact agree i early
          · have late := rest (i - 8) (by omega)
            rwa [show s1 + (matched + 8) + (i - 8) = s1 + matched + i by omega,
              show s2 + (matched + 8) + (i - 8) = s2 + matched + i by omega] at late
      · next differ =>
        have difference := first_difference (sized.trans sized'.symm) differ
        rw [sized, show 8 * 8 = 64 from rfl] at difference
        obtain ⟨below, agree, ends⟩ := difference
        refine .inl ⟨_, by rw [Nat.shiftRight_eq_div_pow]; rfl, by omega, fun i early => ?_, fun _ => ?_⟩
        · have place := congrArg (·[i]?) agree
          rw [List.getElem?_take_of_lt early, List.getElem?_take_of_lt early, getElem?_window (by omega),
            getElem?_window (by omega)] at place
          exact place.symm
        · rw [getElem?_window below, getElem?_window below] at ends
          exact fun same => ends same.symm
    · rw [findMatchWords]
      simp only [if_neg word]
      exact .inr ⟨0, rfl, by omega, fun i below => absurd below (Nat.not_lt_zero i)⟩

/-- The length of the longest match, found without an access at or behind the limit. -/
theorem findMatchLength_spec (left : s2 ≤ s2Limit) :
    ∃ matched, findMatchLength input s1 s2 s2Limit = .ok matched ∧ LongestMatch input.bytes s1 s2 s2Limit matched := by
  rw [findMatchLength, check_holds left, ok_bind]
  have enough : s2Limit < s2 + 0 + (s2Limit - s2 + 1) := by omega
  rcases findMatchWords_spec input before within left enough with ⟨more, found, longest⟩ | ⟨more, found, inside, same⟩
  · simp only [Nat.add_zero] at found
    rw [found]
    exact ⟨_, rfl, LongestMatch.extend (fun i below => absurd below (Nat.not_lt_zero i)) longest⟩
  · simp only [Nat.add_zero] at found
    rw [found, ok_bind]
    have enough' : s2Limit < s2 + (0 + more) + (s2Limit - (s2 + (0 + more)) + 1) := by omega
    obtain ⟨count, found', longest⟩ := findMatchBytes_spec input before within inside enough'
    exact ⟨_, found', LongestMatch.extend (by simpa using same) longest⟩

end Match

/-! ## What is copied -/

section Copies

variable {out : Bytes} {offset : Nat} (positive : 0 < offset) (back : offset ≤ out.length)

include positive back

section Pieces

variable (starts : out <+: mem.bytes)

include starts

/-- A piece that is moved repeats what is there as far as it does not reach behind it. -/
theorem moved_piece (count : Nat) (room : out.length + count ≤ size) :
    ∃ piece mem', load mem (out.length - offset) count = .ok piece ∧ store mem out.length piece = .ok mem' ∧
      copyBack offset (min offset count) out <+: mem'.bytes := by
  have long := starts.length_le
  have inside : out.length - offset + count ≤ size := by omega
  have sized := length_window mem inside
  obtain ⟨mem', stored, starts'⟩ := store_behind ((mem.bytes.drop (out.length - offset)).take count) starts (by omega)
  refine ⟨_, mem', load_inside inside, stored, List.IsPrefix.trans ?_ starts'⟩
  rw [copyBack_short positive back (Nat.min_le_left _ _)]
  have known : (out.drop (out.length - offset)).take (min offset count) =
      ((mem.bytes.drop (out.length - offset)).take count).take (min offset count) := by
    obtain ⟨rest, whole⟩ := starts
    rw [← whole, List.take_take, List.drop_append_of_le_length (by omega), List.take_append_of_le_length]
    · congr 1
      omega
    · rw [List.length_drop]
      omega
  rw [known]
  exact List.prefix_append_right_inj _ |>.mpr (List.take_prefix _ _)

theorem incrementalCopyLoop_spec {len : Nat} (room : out.length + len ≤ size) :
    ∃ mem', incrementalCopyLoop mem (out.length - offset) out.length len = .ok mem' ∧
      copyBack offset len out <+: mem'.bytes := by
  induction len generalizing mem out with
  | zero => exact ⟨mem, rfl, starts⟩
  | succ len ih =>
    obtain ⟨piece, mem', loaded, stored, starts'⟩ := moved_piece positive back starts 1 (by omega)
    rw [Nat.min_eq_right (by omega : 1 ≤ offset)] at starts'
    have sized := length_copyBack positive back 1
    obtain ⟨mem'', copied, starts''⟩ := ih (by omega) starts' (by omega)
    refine ⟨mem'', ?_, ?_⟩
    · rw [incrementalCopyLoop, loaded, ok_bind, stored, ok_bind]
      rwa [sized, show out.length + 1 - offset = out.length - offset + 1 by omega] at copied
    · rwa [← copyBack_add, Nat.add_comm 1] at starts''

theorem incrementalCopy_spec {len : Nat} (some : 0 < len) (room : out.length + len ≤ size) :
    ∃ mem', incrementalCopy mem (out.length - offset) out.length len = .ok mem' ∧ copyBack offset len out <+: mem'.bytes := by
  rw [incrementalCopy, check_holds some, ok_bind]
  exact incrementalCopyLoop_spec positive back starts room

/-- Whole words, from far enough back. -/
theorem copyWords_spec {fuel : Nat} {len : Int} (far : 8 ≤ offset) (room : out.length + len + 7 ≤ size) (enough : len.toNat < fuel) :
    ∃ mem', copyWords fuel mem (out.length - offset) out.length len = .ok mem' ∧
      copyBack offset len.toNat out <+: mem'.bytes := by
  induction fuel generalizing mem out len with
  | zero => omega
  | succ fuel ih =>
    rw [copyWords]
    by_cases more : 0 < len
    · obtain ⟨piece, mem', loaded, stored, starts'⟩ := moved_piece positive back starts 8 (by omega)
      rw [Nat.min_eq_right far] at starts'
      have sized := length_copyBack positive back 8
      obtain ⟨mem'', copied, starts''⟩ := @ih _ _ (by omega) starts' (len - 8) (by omega) (by omega)
      rw [sized, show out.length + 8 - offset = out.length - offset + 8 by omega] at copied
      refine ⟨mem'', ?_, ?_⟩
      · simp only [if_pos more, copy64, loaded, ok_bind, stored, copied]
      · rw [← copyBack_add] at starts''
        refine List.IsPrefix.trans ?_ starts''
        rw [show 8 + (len - 8).toNat = len.toNat + (8 + (len - 8).toNat - len.toNat) by omega, copyBack_add]
        have back' : offset ≤ (copyBack offset len.toNat out).length := by
          rw [length_copyBack positive back]
          omega
        obtain ⟨rest, -, made⟩ := copyBack_spec positive back' (8 + (len - 8).toNat - len.toNat)
        exact ⟨rest, made.symm⟩
    · simp only [if_neg more]
      refine ⟨mem, rfl, ?_⟩
      rw [show len.toNat = 0 by omega]
      exact starts

end Pieces

/-- The pattern is written again, which doubles it, until a word does not run into itself. A pattern of less than
eight bytes is the first, the second or the fourth of its length. -/
theorem expandPattern_spec {fuel m len : Nat} (pattern : m = 0 ∨ m = offset ∨ m = 3 * offset ∨ 8 ≤ offset + m)
    (enough : 8 ≤ (offset + m) * 2 ^ fuel) (room : out.length + 11 ≤ size) (starts : copyBack offset m out <+: mem.bytes)
    (doubled : ∀ n, copyBack (offset + m) n (copyBack offset m out) = copyBack offset (m + n) out) :
    ∃ mem' m', expandPattern (out.length - offset) (fuel + 1) mem (out.length + m) ((len : Int) - m) =
        .ok (mem', out.length + m', (len : Int) - m') ∧ 8 ≤ offset + m' ∧ copyBack offset m' out <+: mem'.bytes ∧
      ∀ n, copyBack (offset + m') n (copyBack offset m' out) = copyBack offset (m' + n) out := by
  have distance : out.length + m - (out.length - offset) = offset + m := by omega
  induction fuel generalizing mem m with
  | zero =>
    refine ⟨mem, m, ?_, by omega, starts, doubled⟩
    rw [expandPattern, distance]
    simp only [if_neg (show ¬ offset + m < 8 by omega)]
    rfl
  | succ fuel ih =>
    by_cases short : offset + m < 8
    · have sized := length_copyBack positive back m
      have twice : (offset + (m + (offset + m))) * 2 ^ fuel = (offset + m) * 2 ^ (fuel + 1) := by
        rw [Nat.pow_succ]
        ring
      obtain ⟨piece, mem', loaded, stored, starts'⟩ :=
        moved_piece (show 0 < offset + m by omega) (by omega) starts 8 (by omega)
      rw [Nat.min_eq_left (by omega), doubled] at starts'
      rw [sized, show out.length + m - (offset + m) = out.length - offset by omega] at loaded
      rw [sized] at stored
      have doubled' : ∀ n, copyBack (offset + (m + (offset + m))) n (copyBack offset (m + (offset + m)) out) =
          copyBack offset (m + (offset + m) + n) out := by
        intro n
        rw [show offset + (m + (offset + m)) = 2 * (offset + m) by omega, ← doubled (offset + m),
          copyBack_double (by omega) (by omega), doubled]
        congr 1
        omega
      obtain ⟨mem'', m', expanded, rest⟩ := ih (m := m + (offset + m)) (by omega) (by rwa [twice]) starts' doubled' (by omega)
      refine ⟨mem'', m', ?_, rest⟩
      rw [expandPattern, distance]
      simp only [if_pos short, copy64, loaded, stored, ok_bind]
      rw [Nat.add_assoc, show (len : Int) - m - ((offset + m : Nat) : Int) = len - ((m + (offset + m) : Nat) : Int) by omega,
        expanded]
    · refine ⟨mem, m, ?_, by omega, starts, doubled⟩
      rw [expandPattern, distance]
      simp only [if_neg short]
      rfl

/-- The fast path writes at most ten bytes behind the copy. -/
theorem incrementalCopyFastPath_spec {len : Nat} (starts : out <+: mem.bytes) (some : 0 < len) (room : out.length + len + 10 ≤ size) :
    ∃ mem', incrementalCopyFastPath mem (out.length - offset) out.length len = .ok mem' ∧
      copyBack offset len out <+: mem'.bytes := by
  have enough : 8 ≤ (offset + 0) * 2 ^ 3 := by omega
  obtain ⟨mem', m, expanded, far, starts', doubled⟩ := @expandPattern_spec size mem out offset positive back 3 0 len (.inl rfl) enough
    (by omega) starts (by simp [copyBack])
  have sized := length_copyBack positive back m
  have enough' : ((len : Int) - m).toNat < len + 1 := by omega
  obtain ⟨mem'', copied, starts''⟩ := copyWords_spec (by omega) (by omega) starts' far (by omega) enough'
  rw [sized, show out.length + m - (offset + m) = out.length - offset by omega] at copied
  refine ⟨mem'', ?_, ?_⟩
  · simp only [Nat.add_zero, Int.natCast_zero, Int.sub_zero, Nat.reduceAdd] at expanded
    rw [incrementalCopyFastPath, expanded, ok_bind]
    exact copied
  · rw [doubled, show m + ((len : Int) - m).toNat = len + (m + ((len : Int) - m).toNat - len) by omega, copyBack_add] at starts''
    have back' : offset ≤ (copyBack offset len out).length := by
      rw [length_copyBack positive back]
      omega
    obtain ⟨rest, -, made⟩ := copyBack_spec positive back' (m + ((len : Int) - m).toNat - len)
    exact List.IsPrefix.trans ⟨rest, made.symm⟩ starts''

end Copies

/-! ## What is not written -/

theorem store_frame {p limit : Nat} {mem' : Buffer size} (stored : store mem p data = .ok mem') (below : p + data.length ≤ limit) :
    mem'.bytes.drop limit = mem.bytes.drop limit := by
  have inside : p + data.length ≤ size := by
    rw [store, orError_eq_ok, Buffer.store] at stored
    obtain ⟨inside, -⟩ := Option.dite_none_right_eq_some.mp stored
    omega
  have sized := mem.sized
  obtain ⟨mem'', stored', content⟩ : ∃ mem'', store mem p data = .ok mem'' ∧ _ := store_inside inside
  cases stored.symm.trans stored'
  have front : (mem.bytes.take p ++ data).length = p + data.length := by
    rw [List.length_append, List.length_take]
    omega
  have place : limit = (mem.bytes.take p ++ data).length + (limit - (p + data.length)) := by omega
  rw [content, place, List.drop_length_add_append, List.drop_drop, front]

theorem length_loaded {p count : Nat} (loaded : load mem p count = .ok data) : data.length ≤ count := by
  rw [load, orError_eq_ok, Buffer.load] at loaded
  obtain ⟨-, same⟩ := Option.ite_none_right_eq_some.mp loaded
  rw [← Option.some.inj same]
  exact List.length_take_le _ _

theorem copy64_frame {src op limit : Nat} {mem' : Buffer size} (copied : copy64 mem src op = .ok mem') (below : op + 8 ≤ limit) :
    mem'.bytes.drop limit = mem.bytes.drop limit := by
  obtain ⟨word, loaded, stored⟩ := bind_eq_ok.mp copied
  have short := length_loaded loaded
  exact store_frame stored (by omega)

theorem incrementalCopyLoop_frame {src op len : Nat} {mem' : Buffer size} (copied : incrementalCopyLoop mem src op len = .ok mem') :
    mem'.bytes.drop (op + len) = mem.bytes.drop (op + len) := by
  induction len generalizing mem src op with
  | zero =>
    cases copied
    rfl
  | succ len ih =>
    obtain ⟨byte, loaded, rest⟩ := bind_eq_ok.mp copied
    obtain ⟨mem1, stored, rest⟩ := bind_eq_ok.mp rest
    have short := length_loaded loaded
    have later := ih rest
    rw [show op + 1 + len = op + (len + 1) by omega] at later
    exact later.trans (store_frame stored (by omega))

theorem copyWords_frame {fuel src op limit : Nat} {len : Int} {mem' : Buffer size} (copied : copyWords fuel mem src op len = .ok mem')
    (below : op + len + 7 ≤ limit) : mem'.bytes.drop limit = mem.bytes.drop limit := by
  induction fuel generalizing mem src op len with
  | zero => cases copied
  | succ fuel ih =>
    rw [copyWords] at copied
    by_cases more : 0 < len
    · rw [if_pos more] at copied
      obtain ⟨mem1, word, rest⟩ := bind_eq_ok.mp copied
      exact (ih rest (by omega)).trans (copy64_frame word (by omega))
    · rw [if_neg more] at copied
      cases copied
      rfl

/-- A pattern that is shorter than a word has been made longer by at most three bytes. -/
theorem expandPattern_frame {fuel src op offset m limit : Nat} {len len' : Int} {mem' : Buffer size} {op' : Nat}
    (expanded : expandPattern src fuel mem (src + offset + m) len = .ok (mem', op', len')) (positive : 0 < offset)
    (pattern : m = 0 ∨ m = offset ∨ m = 3 * offset ∨ 8 ≤ offset + m) (start : op = src + offset) (below : op + 11 ≤ limit) :
    mem'.bytes.drop limit = mem.bytes.drop limit ∧ (op' : Int) + len' = op + m + len := by
  induction fuel generalizing mem m len with
  | zero => cases expanded
  | succ fuel ih =>
    have distance : src + offset + m - src = offset + m := by omega
    rw [expandPattern, distance] at expanded
    by_cases short : offset + m < 8
    · rw [if_pos short] at expanded
      obtain ⟨mem1, word, rest⟩ := bind_eq_ok.mp expanded
      rw [show src + offset + m + (offset + m) = src + offset + (m + (offset + m)) by omega] at rest
      obtain ⟨later, sum⟩ := ih rest (by omega)
      refine ⟨later.trans (copy64_frame word (by omega)), ?_⟩
      omega
    · rw [if_neg short] at expanded
      cases expanded
      exact ⟨rfl, by omega⟩

/-- The fast path leaves what `incremental_copy` leaves, but for at most ten bytes behind the copy. -/
theorem incrementalCopyFastPath_agrees {src op len : Nat} (before : src < op) (some : 0 < len) (room : op + len + 10 ≤ size) :
    ∃ plain fast, incrementalCopy mem src op len = .ok plain ∧ incrementalCopyFastPath mem src op len = .ok fast ∧
      plain.bytes.drop (op + len) = mem.bytes.drop (op + len) ∧ fast.bytes.take (op + len) = plain.bytes.take (op + len) ∧
      fast.bytes.drop (op + len + 10) = mem.bytes.drop (op + len + 10) := by
  have sized := mem.sized
  have out : (mem.bytes.take op).length = op := by
    rw [List.length_take]
    omega
  have place : op - (op - src) = src := by omega
  have starts := List.take_prefix op mem.bytes
  have positive : 0 < op - src := by omega
  have back : op - src ≤ (mem.bytes.take op).length := by omega
  obtain ⟨plain, copied, content⟩ := incrementalCopy_spec positive back starts some (by omega)
  obtain ⟨fast, copied', content'⟩ := incrementalCopyFastPath_spec positive back starts some (by omega)
  rw [out, place] at copied copied'
  have text := length_copyBack positive back len
  rw [out] at text
  have known := List.prefix_iff_eq_take.mp content
  have known' := List.prefix_iff_eq_take.mp content'
  rw [text] at known known'
  refine ⟨plain, fast, copied, copied', ?_, known'.symm.trans known, ?_⟩
  · rw [incrementalCopy, check_holds some, ok_bind] at copied
    exact incrementalCopyLoop_frame copied
  · obtain ⟨⟨mem1, op1, rest⟩, expanded, words⟩ := bind_eq_ok.mp copied'
    rw [show op = src + (op - src) + 0 by omega] at expanded
    have start : op = src + (op - src) := by omega
    have below : op + 11 ≤ op + len + 10 := by omega
    obtain ⟨pattern, sum⟩ := expandPattern_frame expanded positive (.inl rfl) start below
    exact (copyWords_frame words (by omega)).trans pattern

/-- One byte that is repeated, where the words reach ten bytes behind it. -/
theorem incrementalCopyFastPath_agrees_short :
    ∃ plain fast, incrementalCopy (Buffer.ofBytes [7, 0, 0, 0, 0, 0, 0, 0, 0, 0, 0, 0]) 0 1 1 = .ok plain ∧
      incrementalCopyFastPath (Buffer.ofBytes [7, 0, 0, 0, 0, 0, 0, 0, 0, 0, 0, 0]) 0 1 1 = .ok fast ∧
      plain.bytes.drop 2 = [0, 0, 0, 0, 0, 0, 0, 0, 0, 0] ∧ fast.bytes.take 2 = plain.bytes.take 2 ∧ fast.bytes.drop 12 = [] :=
  incrementalCopyFastPath_agrees (by decide) (by decide) (by decide)

end Rsvndump.Snappy
