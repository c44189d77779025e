import Rsvndump.Library.CString
import Mathlib.Data.Nat.Bitwise
import Mathlib.Tactic.Ring

/-! Numbers in memory, least significant byte first. -/

set_option autoImplicit false

namespace Library

def ofLittle : Bytes → Nat
  | [] => 0
  | b :: rest => b.toNat + 256 * ofLittle rest

def toLittle : Nat → Nat → Bytes
  | 0, _ => []
  | count + 1, n => UInt8.ofNat n :: toLittle count (n / 256)

@[simp] theorem length_toLittle (count n : Nat) : (toLittle count n).length = count := by
  induction count generalizing n with
  | zero => rfl
  | succ count ih => rw [toLittle, List.length_cons, ih]

theorem ofLittle_lt (bytes : Bytes) : ofLittle bytes < 256 ^ bytes.length := by
  induction bytes with
  | nil => exact Nat.one_pos
  | cons b rest ih =>
    have byte := b.toNat_lt
    rw [ofLittle, List.length_cons, Nat.pow_succ]
    omega

theorem ofLittle_toLittle {count n : Nat} (fits : n < 256 ^ count) : ofLittle (toLittle count n) = n := by
  induction count generalizing n with
  | zero =>
    rw [Nat.pow_zero] at fits
    rw [toLittle, ofLittle]
    omega
  | succ count ih =>
    rw [Nat.pow_succ] at fits
    rw [toLittle, ofLittle, ih (by omega), UInt8.toNat_ofNat']
    omega

theorem ofLittle_append (front back : Bytes) :
    ofLittle (front ++ back) = ofLittle front + 256 ^ front.length * ofLittle back := by
  induction front with
  | nil => simp [ofLittle]
  | cons b front ih =>
    rw [List.cons_append, ofLittle, ofLittle, ih, List.length_cons]
    ring

theorem ofLittle_injective {first second : Bytes} (sized : first.length = second.length)
    (same : ofLittle first = ofLittle second) : first = second := by
  induction first generalizing second with
  | nil => exact (List.length_eq_zero_iff.mp sized.symm).symm
  | cons b first ih =>
    cases second with
    | nil => simp at sized
    | cons c second =>
      have byte := b.toNat_lt
      have byte' := c.toNat_lt
      rw [ofLittle, ofLittle] at same
      have head : b = c := UInt8.toNat_inj.mp (by omega)
      rw [head, ih (by simpa using sized) (by omega)]

/-- A field of a number is the number in the bytes of the field. -/
theorem ofLittle_field (bytes : Bytes) (start count : Nat) :
    ofLittle bytes / 256 ^ start % 256 ^ count = ofLittle ((bytes.drop start).take count) := by
  induction start generalizing bytes with
  | zero =>
    rw [Nat.pow_zero, Nat.div_one, List.drop_zero]
    have split := ofLittle_append (bytes.take count) (bytes.drop count)
    rw [List.take_append_drop] at split
    by_cases long : count ≤ bytes.length
    · have bound := ofLittle_lt (bytes.take count)
      rw [List.length_take, Nat.min_eq_left long] at split bound
      rw [split, Nat.add_mul_mod_self_left, Nat.mod_eq_of_lt bound]
    · rw [List.take_of_length_le (by omega)]
      exact Nat.mod_eq_of_lt (Nat.lt_of_lt_of_le (ofLittle_lt bytes) (Nat.pow_le_pow_right (by decide) (by omega)))
  | succ start ih =>
    cases bytes with
    | nil => simp [ofLittle]
    | cons b rest =>
      have byte := b.toNat_lt
      have dropped : (b.toNat + 256 * ofLittle rest) / 256 = ofLittle rest := by omega
      rw [ofLittle, Nat.pow_succ', ← Nat.div_div_eq_div_mul, dropped, List.drop_succ_cons]
      exact ih rest

/-! ## Bits -/

theorem testBit_ofLittle (bytes : Bytes) (i : Nat) :
    (ofLittle bytes).testBit i = ((bytes[i / 8]?).getD 0).toNat.testBit (i % 8) := by
  induction bytes generalizing i with
  | nil => simp [ofLittle]
  | cons b rest ih =>
    have byte : b.toNat < 2 ^ 8 := b.toNat_lt
    have split : ofLittle (b :: rest) = 2 ^ 8 * ofLittle rest + b.toNat := by
      rw [ofLittle]
      omega
    rw [split, Nat.testBit_two_pow_mul_add _ byte]
    by_cases low : i < 8
    · rw [if_pos low, Nat.div_eq_of_lt low, Nat.mod_eq_of_lt low]
      rfl
    · have next : i / 8 = (i - 8) / 8 + 1 := by omega
      have same : i % 8 = (i - 8) % 8 := by omega
      rw [if_neg low, ih, next, same, List.getElem?_cons_succ]

/-- The place of the lowest bit that is set below `width`. -/
def lowestBit (width n : Nat) : Nat := (List.range width).findIdx fun i => n.testBit i

theorem lowestBit_le (width n : Nat) : lowestBit width n ≤ width := by
  have bound : lowestBit width n ≤ (List.range width).length := List.findIdx_le_length
  rwa [List.length_range] at bound

theorem testBit_below_lowestBit {width n i : Nat} (lower : i < lowestBit width n) : n.testBit i = false := by
  have inside := lowestBit_le width n
  have listed : i < (List.range width).length := by
    rw [List.length_range]
    omega
  have unset : n.testBit (List.range width)[i] = false := List.not_of_lt_findIdx lower
  rwa [List.getElem_range] at unset

theorem testBit_lowestBit {width n : Nat} (inside : lowestBit width n < width) : n.testBit (lowestBit width n) = true := by
  have listed : lowestBit width n < (List.range width).length := by rwa [List.length_range]
  have found : n.testBit (List.range width)[lowestBit width n] = true := List.findIdx_getElem
  rwa [List.getElem_range] at found

theorem lowestBit_lt {width n : Nat} (small : n < 2 ^ width) (nonzero : n ≠ 0) : lowestBit width n < width := by
  rcases Nat.lt_or_eq_of_le (lowestBit_le width n) with inside | whole
  · exact inside
  · refine absurd (Nat.eq_of_testBit_eq fun i => ?_) nonzero
    rw [Nat.zero_testBit]
    by_cases lower : i < width
    · exact testBit_below_lowestBit (by rwa [whole])
    · exact Nat.testBit_lt_two_pow (Nat.lt_of_lt_of_le small (Nat.pow_le_pow_right (by decide) (by omega)))

theorem byte_eq_of_bits {b c : UInt8} (same : ∀ k < 8, b.toNat.testBit k = c.toNat.testBit k) : b = c := by
  refine UInt8.toNat_inj.mp (Nat.eq_of_testBit_eq fun k => ?_)
  by_cases low : k < 8
  · exact same k low
  · have high : 2 ^ 8 ≤ 2 ^ k := Nat.pow_le_pow_right (by decide) (by omega)
    rw [Nat.testBit_lt_two_pow (Nat.lt_of_lt_of_le b.toNat_lt high),
      Nat.testBit_lt_two_pow (Nat.lt_of_lt_of_le c.toNat_lt high)]

/-- Two words first differ in the byte that has the lowest bit in which they differ. -/
theorem first_difference {first second : Bytes} (sized : first.length = second.length)
    (differ : ofLittle first ≠ ofLittle second) :
    let k := lowestBit (8 * first.length) (ofLittle first ^^^ ofLittle second) / 8
    k < first.length ∧ first.take k = second.take k ∧ first[k]? ≠ second[k]? := by
  intro k
  have bound := ofLittle_lt first
  have bound' := ofLittle_lt second
  rw [← sized] at bound'
  have power : 256 ^ first.length = 2 ^ (8 * first.length) := by
    rw [show 256 = 2 ^ 8 from rfl, ← Nat.pow_mul]
  rw [power] at bound bound'
  have inside := lowestBit_lt (Nat.xor_lt_two_pow bound bound') fun same => differ (Nat.eq_of_xor_eq_zero same)
  have below : k < first.length := by omega
  have below' : k < second.length := by omega
  refine ⟨below, List.ext_getElem? fun j => ?_, fun same => ?_⟩
  · by_cases early : j < k
    · rw [List.getElem?_take_of_lt early, List.getElem?_take_of_lt early, List.getElem?_eq_getElem (by omega),
        List.getElem?_eq_getElem (by omega)]
      refine congrArg some (byte_eq_of_bits fun i low => ?_)
      have lower : 8 * j + i < lowestBit (8 * first.length) (ofLittle first ^^^ ofLittle second) := by omega
      have unset := testBit_below_lowestBit lower
      have place : (8 * j + i) / 8 = j ∧ (8 * j + i) % 8 = i := by omega
      rw [Nat.testBit_xor, testBit_ofLittle, testBit_ofLittle, place.1, place.2, List.getElem?_eq_getElem (by omega),
        List.getElem?_eq_getElem (by omega)] at unset
      simpa using unset
    · rw [List.getElem?_eq_none (by rw [List.length_take]; omega), List.getElem?_eq_none (by rw [List.length_take]; omega)]
  · have set := testBit_lowestBit inside
    rw [Nat.testBit_xor, testBit_ofLittle, testBit_ofLittle] at set
    change (((first[k]?).getD 0).toNat.testBit _ ^^ ((second[k]?).getD 0).toNat.testBit _) = true at set
    rw [same] at set
    simp at set

end Library
