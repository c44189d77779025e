import Rsvndump.Critbit.Tree

/-! Crit-bit trees implement sets of strings.

Bits are numbered from the most significant bit of the first byte. A node
decides bit `8 * byte + k`, where its mask has bit `k` cleared; all strings of a
subtree agree on the bits before the one its root decides.
-/

set_option autoImplicit false

namespace Rsvndump

open Library

/-! ## Bits of strings -/

/-- `otherbits` of a node that decides bit `k` of its byte. -/
def bitMask (k : Nat) : UInt8 := (255 : UInt8) ^^^ UInt8.ofNat (128 >>> k)

def bitAt (s : CString) (n : Nat) : Bool := (ubyte s (n / 8)).toNat.testBit (7 - n % 8)

theorem direction_table : ∀ k < 8, ∀ c < 256,
    direction (bitMask k) (UInt8.ofNat c) = if c.testBit (7 - k) then 1 else 0 := by
  decide +kernel

theorem bitMask_table : ∀ k < 8, ∀ j < 8, (bitMask k > bitMask j ↔ k > j) := by decide

theorem newOtherbits_table : ∀ c < 256, c ≠ 0 →
    ∃ k < 8, newOtherbits (UInt8.ofNat c) = bitMask k ∧ c.testBit (7 - k) = true ∧
      ∀ j < k, c.testBit (7 - j) = false := by
  decide +kernel

theorem direction_bitMask {k : Nat} (bound : k < 8) (s : CString) (byte : Nat) :
    direction (bitMask k) (ubyte s byte) = if bitAt s (8 * byte + k) then 1 else 0 := by
  have table := direction_table k bound (ubyte s byte).toNat (ubyte s byte).toNat_lt
  have whole : (8 * byte + k) / 8 = byte := by omega
  have rest : (8 * byte + k) % 8 = k := by omega
  simpa [bitAt, whole, rest] using table

/-- Descents go left exactly on a zero bit. -/
theorem direction_eq_zero {k : Nat} (bound : k < 8) (s : CString) (byte : Nat) :
    direction (bitMask k) (ubyte s byte) = 0 ↔ bitAt s (8 * byte + k) = false := by
  rw [direction_bitMask bound]
  cases bitAt s (8 * byte + k) <;> simp

theorem ubyte_eq_of_bits {s t : CString} {i : Nat}
    (same : ∀ k < 8, bitAt s (8 * i + k) = bitAt t (8 * i + k)) : ubyte s i = ubyte t i := by
  apply UInt8.toNat_inj.mp
  apply Nat.eq_of_testBit_eq
  intro j
  by_cases small : j < 8
  · have bits := same (7 - j) (by omega)
    have whole : (8 * i + (7 - j)) / 8 = i := by omega
    have rest : 7 - (8 * i + (7 - j)) % 8 = j := by omega
    simpa only [bitAt, whole, rest] using bits
  · have large : 2 ^ 8 ≤ 2 ^ j := Nat.pow_le_pow_right (by omega) (by omega)
    rw [Nat.testBit_lt_two_pow (Nat.lt_of_lt_of_le (ubyte s i).toNat_lt large),
      Nat.testBit_lt_two_pow (Nat.lt_of_lt_of_le (ubyte t i).toNat_lt large)]

@[simp] theorem ubyte_eq_zero {s : CString} {i : Nat} : ubyte s i = 0 ↔ s.length ≤ i := by
  by_cases inside : i < s.length
  · simp [ubyte, inside, s[i].nonzero]
  · simp [ubyte, Nat.le_of_not_lt inside]

/-- Bytes past the terminator are never compared: a prefix is decided by its own bytes. -/
theorem isPrefix_of_ubyte {s t : CString} (same : ∀ i < s.length, ubyte s i = ubyte t i) : s <+: t := by
  rw [List.prefix_iff_getElem?]
  intro i inside
  have equal := same i inside
  have present : i < t.length := by
    apply Nat.lt_of_not_le
    intro missing
    rw [ubyte_eq_zero.mpr missing, ubyte_eq_zero] at equal
    omega
  have bytes : s[i].byte = t[i].byte := by simpa [ubyte, inside, present] using equal
  have chars : s[i] = t[i] := by
    cases left : s[i]; cases right : t[i]
    simpa [left, right] using bytes
  rw [List.getElem?_eq_getElem present, chars]

theorem ubyte_of_isPrefix {s t : CString} (pre : s <+: t) {i : Nat} (inside : i < s.length) :
    ubyte t i = ubyte s i := by
  obtain ⟨rest, rfl⟩ := pre
  simp [ubyte, List.getElem?_append_left inside]

theorem bitAt_of_ubyte {s t : CString} {n : Nat} (same : ubyte s (n / 8) = ubyte t (n / 8)) :
    bitAt s n = bitAt t n := by
  simp only [bitAt, same]

/-! ## The byte that decides an insertion -/

theorem differentByte_eq_none (p s : CString) : differentByte p s = none ↔ p = s := by
  induction p generalizing s with
  | nil => cases s <;> simp [differentByte]
  | cons c p ih =>
    cases s with
    | nil => simp [differentByte]
    | cons u s =>
      simp only [differentByte]
      split
      · next different =>
        have unequal : c ≠ u := fun same => different (congrArg CChar.byte same)
        simp [unequal]
      · next same =>
        have equal : c = u := by
          cases c; cases u
          simpa using same
        simp [equal, ih]

theorem differentByte_spec {p s : CString} {newbyte : Nat} {bits : UInt8}
    (found : differentByte p s = some (newbyte, bits)) :
    (∀ i < newbyte, ubyte p i = ubyte s i) ∧ bits = ubyte p newbyte ^^^ ubyte s newbyte ∧ bits ≠ 0 := by
  induction p generalizing s newbyte with
  | nil =>
    cases s with
    | nil => simp [differentByte] at found
    | cons u s =>
      simp only [differentByte, Option.some.injEq, Prod.mk.injEq] at found
      obtain ⟨rfl, rfl⟩ := found
      exact ⟨by simp, by simp [ubyte], by simpa using u.nonzero⟩
  | cons c p ih =>
    cases s with
    | nil =>
      simp only [differentByte, Option.some.injEq, Prod.mk.injEq] at found
      obtain ⟨rfl, rfl⟩ := found
      exact ⟨by simp, by simp [ubyte], c.nonzero⟩
    | cons u s =>
      simp only [differentByte] at found
      split at found
      · next different =>
        simp only [Option.some.injEq, Prod.mk.injEq] at found
        obtain ⟨rfl, rfl⟩ := found
        exact ⟨by simp, by simp [ubyte], by simpa [UInt8.xor_eq_zero_iff] using different⟩
      · next same =>
        obtain ⟨⟨i, bits⟩, tail, equal⟩ := Option.map_eq_some_iff.mp found
        simp only [Prod.mk.injEq] at equal
        obtain ⟨rfl, rfl⟩ := equal
        obtain ⟨before, value, nonzero⟩ := ih tail
        refine ⟨?_, by simpa [ubyte] using value, nonzero⟩
        intro j bound
        cases j with
        | zero => simpa [ubyte] using same
        | succ j => simpa [ubyte] using before j (by omega)

/-- The new node decides the first bit in which the two strings differ. -/
theorem newOtherbits_spec {p s : CString} {newbyte : Nat} {bits : UInt8}
    (found : differentByte p s = some (newbyte, bits)) :
    ∃ k < 8, newOtherbits bits = bitMask k ∧
      (∀ m < 8 * newbyte + k, bitAt p m = bitAt s m) ∧
      bitAt p (8 * newbyte + k) ≠ bitAt s (8 * newbyte + k) := by
  obtain ⟨before, value, nonzero⟩ := differentByte_spec found
  have differs : bits.toNat ≠ 0 := fun zero => nonzero (UInt8.toNat_inj.mp zero)
  obtain ⟨k, bound, mask, high, low⟩ := newOtherbits_table bits.toNat bits.toNat_lt differs
  have inByte : ∀ j < 8, bits.toNat.testBit (7 - j) =
      (bitAt p (8 * newbyte + j) ^^ bitAt s (8 * newbyte + j)) := by
    intro j small
    have whole : (8 * newbyte + j) / 8 = newbyte := by omega
    have rest : (8 * newbyte + j) % 8 = j := by omega
    simp only [bitAt, whole, rest, value, UInt8.toNat_xor, Nat.testBit_xor]
  refine ⟨k, bound, by simpa using mask, ?_, ?_⟩
  · intro m earlier
    by_cases sameByte : m / 8 = newbyte
    · have position : m = 8 * newbyte + m % 8 := by omega
      have zero := low (m % 8) (by omega)
      rw [inByte (m % 8) (by omega), ← position] at zero
      simpa using zero
    · exact bitAt_of_ubyte (before (m / 8) (by omega))
  · have one := inByte k bound
    rw [high] at one
    intro same
    simp [same] at one

/-! ## The tree invariant -/

/-- Bit `n` separates the two sides, and it is the first one to do so. -/
structure Splits (n : Nat) (left right : List CString) : Prop where
  zero : ∀ s ∈ left, bitAt s n = false
  one : ∀ s ∈ right, bitAt s n = true
  agree : ∀ s ∈ left ++ right, ∀ t ∈ left ++ right, ∀ m < n, bitAt s m = bitAt t m

theorem Splits.mono {n : Nat} {left right left' right' : List CString} (split : Splits n left right)
    (fewer : ∀ s ∈ left', s ∈ left) (others : ∀ s ∈ right', s ∈ right) : Splits n left' right' where
  zero s member := split.zero s (fewer s member)
  one s member := split.one s (others s member)
  agree s first t second := by
    have inside : ∀ u ∈ left' ++ right', u ∈ left ++ right := by
      intro u member
      rcases List.mem_append.mp member with member | member
      · exact List.mem_append_left _ (fewer u member)
      · exact List.mem_append_right _ (others u member)
    exact split.agree s (inside s first) t (inside t second)

/-- The root decides a bit from `lo` on, and every node splits its strings. -/
def CbNode.WF (lo : Nat) : CbNode → Prop
  | .leaf _ => True
  | .node byte otherbits child0 child1 => ∃ k < 8, otherbits = bitMask k ∧ lo ≤ 8 * byte + k ∧
      Splits (8 * byte + k) child0.strings child1.strings ∧
      child0.WF (8 * byte + k + 1) ∧ child1.WF (8 * byte + k + 1)

def CbTree.WF : CbTree → Prop
  | none => True
  | some root => root.WF 0

theorem CbNode.WF.mono {lo lo' : Nat} {t : CbNode} (wf : t.WF lo) (le : lo' ≤ lo) : t.WF lo' := by
  cases t with
  | leaf => trivial
  | node byte otherbits child0 child1 =>
    obtain ⟨k, bound, mask, above, rest⟩ := wf
    exact ⟨k, bound, mask, Nat.le_trans le above, rest⟩

theorem CbNode.nodup_strings {lo : Nat} {t : CbNode} (wf : t.WF lo) : t.strings.Nodup := by
  induction t generalizing lo with
  | leaf => simp [strings]
  | node byte otherbits child0 child1 ih0 ih1 =>
    obtain ⟨k, bound, mask, above, split, left, right⟩ := wf
    refine List.nodup_append.mpr ⟨ih0 left, ih1 right, ?_⟩
    rintro s first t second rfl
    have zero := split.zero s first
    rw [split.one s second] at zero
    cases zero

theorem CbNode.locate_mem (s : CString) (t : CbNode) : t.locate s ∈ t.strings := by
  induction t with
  | leaf => simp [locate, strings]
  | node byte otherbits child0 child1 ih0 ih1 =>
    simp only [locate, strings, List.mem_append]
    split
    · exact .inl ih0
    · exact .inr ih1

/-- Only one side can hold a given string, namely the one its descent takes. -/
theorem Splits.side {n : Nat} {left right : List CString} (split : Splits n left right) {s : CString}
    (member : s ∈ left ++ right) : if bitAt s n then s ∈ right else s ∈ left := by
  rcases List.mem_append.mp member with member | member
  · simpa [split.zero s member] using member
  · simpa [split.one s member] using member

theorem CbNode.locate_of_mem {lo : Nat} {t : CbNode} (wf : t.WF lo) {s : CString}
    (member : s ∈ t.strings) : t.locate s = s := by
  induction t generalizing lo with
  | leaf str => simpa [locate, strings, eq_comm] using member
  | node byte otherbits child0 child1 ih0 ih1 =>
    obtain ⟨k, bound, rfl, above, split, left, right⟩ := wf
    have side := split.side member
    simp only [locate, direction_eq_zero bound]
    cases bit : bitAt s (8 * byte + k) with
    | false => simpa using ih0 left (by simpa [bit] using side)
    | true => simpa using ih1 right (by simpa [bit] using side)

theorem CbNode.locate_eq_iff {lo : Nat} {t : CbNode} (wf : t.WF lo) (s : CString) :
    t.locate s = s ↔ s ∈ t.strings :=
  ⟨fun found => found ▸ t.locate_mem s, locate_of_mem wf⟩

/-! ## Insertion -/

theorem agree_cons {s : CString} {n : Nat} {strings : List CString}
    (agree : ∀ x ∈ strings, ∀ m < n, bitAt x m = bitAt s m) :
    ∀ x ∈ s :: strings, ∀ y ∈ s :: strings, ∀ m < n, bitAt x m = bitAt y m := by
  have all : ∀ x ∈ s :: strings, ∀ m < n, bitAt x m = bitAt s m := by
    intro x member m earlier
    rcases List.mem_cons.mp member with rfl | member
    · rfl
    · exact agree x member m earlier
  intro x first y second m earlier
  rw [all x first m earlier, all y second m earlier]

section Insertion

variable {s : CString} {newbyte k : Nat} (bound : k < 8)
include bound

theorem CbNode.link_spec {lo newdirection : Nat} {t : CbNode} (wf : t.WF (8 * newbyte + k + 1))
    (above : lo ≤ 8 * newbyte + k)
    (same : ∀ x ∈ t.strings, ∀ m < 8 * newbyte + k, bitAt x m = bitAt s m)
    (differ : ∀ x ∈ t.strings, bitAt x (8 * newbyte + k) ≠ bitAt s (8 * newbyte + k))
    (side : newdirection = 0 ↔ bitAt s (8 * newbyte + k) = true) :
    (insertAt.link s newbyte (bitMask k) newdirection t).WF lo ∧
      ∀ x, x ∈ (insertAt.link s newbyte (bitMask k) newdirection t).strings ↔ x = s ∨ x ∈ t.strings := by
  have agree := agree_cons same
  unfold insertAt.link
  split
  · next zero =>
    have one := side.mp zero
    refine ⟨⟨k, bound, rfl, above, ⟨?_, ?_, ?_⟩, wf, trivial⟩, fun x => ?_⟩
    · intro x member
      have unequal := differ x member
      rw [one] at unequal
      simpa using unequal
    · intro x member
      rw [List.mem_singleton.mp member, one]
    · intro x first y second
      exact agree x (by simpa [strings, or_comm] using first) y (by simpa [strings, or_comm] using second)
    · simp [strings, or_comm]
  · next nonzero =>
    have zero : bitAt s (8 * newbyte + k) = false := by simpa using mt side.mpr nonzero
    refine ⟨⟨k, bound, rfl, above, ⟨?_, ?_, ?_⟩, trivial, wf⟩, fun x => ?_⟩
    · intro x member
      rw [List.mem_singleton.mp member, zero]
    · intro x member
      have unequal := differ x member
      rw [zero] at unequal
      simpa using unequal
    · intro x first y second
      exact agree x (by simpa [strings] using first) y (by simpa [strings] using second)
    · simp [strings]

omit bound in
theorem CbNode.locate_node {byte j : Nat} (small : j < 8) (child0 child1 : CbNode) :
    (node byte (bitMask j) child0 child1).locate s =
      if bitAt s (8 * byte + j) = false then child0.locate s else child1.locate s := by
  simp only [locate, direction_eq_zero small]

omit bound in
/-- The descent takes the side of the string, so what it locates has the same bit. -/
theorem CbNode.locate_bit {byte j : Nat} {child0 child1 : CbNode} (small : j < 8)
    (split : Splits (8 * byte + j) child0.strings child1.strings) :
    bitAt ((node byte (bitMask j) child0 child1).locate s) (8 * byte + j) = bitAt s (8 * byte + j) := by
  rw [locate_node small]
  split
  · next zero =>
    rw [zero]
    exact split.zero _ (locate_mem s child0)
  · next one =>
    rw [split.one _ (locate_mem s child1)]
    simpa using one

/-- The comparison of bytes and masks is one of bit positions. -/
theorem CbNode.insertAt_node {newdirection byte j : Nat} (small : j < 8) (child0 child1 : CbNode) :
    (node byte (bitMask j) child0 child1).insertAt s newbyte (bitMask k) newdirection =
      if 8 * newbyte + k < 8 * byte + j then
        insertAt.link s newbyte (bitMask k) newdirection (node byte (bitMask j) child0 child1)
      else if bitAt s (8 * byte + j) = false then
        node byte (bitMask j) (child0.insertAt s newbyte (bitMask k) newdirection) child1
      else node byte (bitMask j) child0 (child1.insertAt s newbyte (bitMask k) newdirection) := by
  have order := bitMask_table j small k bound
  by_cases later : 8 * newbyte + k < 8 * byte + j
  · rw [if_pos later]
    simp only [insertAt]
    split
    · rfl
    · rw [if_pos ⟨by omega, order.mpr (by omega)⟩]
  · have nearer : ¬ (byte = newbyte ∧ bitMask j > bitMask k) := by
      rintro ⟨rfl, greater⟩
      have := order.mp greater
      omega
    rw [if_neg later]
    simp only [insertAt, if_neg (show ¬ byte > newbyte by omega), if_neg nearer, direction_eq_zero small]

omit bound in
theorem Splits.insert_left {n : Nat} {left left' right : List CString} (split : Splits n left right)
    (agree : ∀ x ∈ left ++ right, ∀ m < n, bitAt x m = bitAt s m) (zero : bitAt s n = false)
    (inserted : ∀ x, x ∈ left' ↔ x = s ∨ x ∈ left) : Splits n left' right := by
  refine ⟨fun x member => ?_, split.one, fun x first y second => agree_cons agree x ?_ y ?_⟩
  · rcases (inserted x).mp member with rfl | member
    · exact zero
    · exact split.zero x member
  · simpa [inserted, or_assoc] using first
  · simpa [inserted, or_assoc] using second

omit bound in
theorem Splits.insert_right {n : Nat} {left right right' : List CString} (split : Splits n left right)
    (agree : ∀ x ∈ left ++ right, ∀ m < n, bitAt x m = bitAt s m) (one : bitAt s n = true)
    (inserted : ∀ x, x ∈ right' ↔ x = s ∨ x ∈ right) : Splits n left right' := by
  refine ⟨split.zero, fun x member => ?_, fun x first y second => agree_cons agree x ?_ y ?_⟩
  · rcases (inserted x).mp member with rfl | member
    · exact one
    · exact split.one x member
  · simpa [inserted, or_left_comm] using first
  · simpa [inserted, or_left_comm] using second

/-- The descent of an insertion: the invariant on its path is that the located
string agrees with the new one before the deciding bit and differs in it. -/
theorem CbNode.insertAt_spec {lo newdirection : Nat} {t : CbNode} (wf : t.WF lo)
    (above : lo ≤ 8 * newbyte + k)
    (same : ∀ m < 8 * newbyte + k, bitAt (t.locate s) m = bitAt s m)
    (differ : bitAt (t.locate s) (8 * newbyte + k) ≠ bitAt s (8 * newbyte + k))
    (side : newdirection = 0 ↔ bitAt s (8 * newbyte + k) = true) :
    (t.insertAt s newbyte (bitMask k) newdirection).WF lo ∧
      ∀ x, x ∈ (t.insertAt s newbyte (bitMask k) newdirection).strings ↔ x = s ∨ x ∈ t.strings := by
  induction t generalizing lo with
  | leaf str =>
    have single : (leaf str).WF (8 * newbyte + k + 1) := trivial
    refine link_spec bound single above ?_ ?_ side
    · intro x member
      rw [List.mem_singleton.mp member]
      exact same
    · intro x member
      rw [List.mem_singleton.mp member]
      exact differ
  | node byte otherbits child0 child1 ih0 ih1 =>
    obtain ⟨j, small, rfl, beyond, split, left, right⟩ := wf
    have whole : (node byte (bitMask j) child0 child1).WF (8 * byte + j) :=
      ⟨j, small, rfl, Nat.le_refl _, split, left, right⟩
    have located := CbNode.locate_mem s (node byte (bitMask j) child0 child1)
    rw [insertAt_node bound small]
    by_cases later : 8 * newbyte + k < 8 * byte + j
    · -- every string here agrees with the located one up to the deciding bit
      rw [if_pos later]
      refine link_spec bound (whole.mono later) above ?_ ?_ side
      · intro x member m earlier
        rw [split.agree x member _ located m (by omega)]
        exact same m earlier
      · intro x member
        rw [split.agree x member _ located _ later]
        exact differ
    · -- the descent never meets the deciding bit itself
      have before : 8 * byte + j < 8 * newbyte + k := by
        rcases Nat.lt_or_eq_of_le (Nat.le_of_not_lt later) with before | equal
        · exact before
        · exact absurd (equal ▸ locate_bit small split) differ
      have agree : ∀ x ∈ child0.strings ++ child1.strings, ∀ m < 8 * byte + j, bitAt x m = bitAt s m := by
        intro x member m earlier
        rw [split.agree x member _ located m earlier]
        exact same m (by omega)
      rw [if_neg later]
      rw [locate_node small] at same differ
      cases bit : bitAt s (8 * byte + j) with
      | false =>
        simp only [bit, if_true] at same differ
        obtain ⟨wf', strings'⟩ := ih0 left before same differ
        simp only [if_true]
        refine ⟨⟨j, small, rfl, beyond, split.insert_left agree bit strings', wf', right⟩, fun x => ?_⟩
        simp [strings, strings', or_assoc]
      | true =>
        simp only [bit, Bool.true_eq_false, if_false] at same differ
        obtain ⟨wf', strings'⟩ := ih1 right before same differ
        simp only [Bool.true_eq_false, if_false]
        refine ⟨⟨j, small, rfl, beyond, split.insert_right agree bit strings', left, wf'⟩, fun x => ?_⟩
        simp [strings, strings', or_left_comm]

end Insertion

/-! ## Deletion -/

theorem CbNode.strings_remove {lo : Nat} {t : CbNode} (wf : t.WF lo) (s : CString) :
    (t.remove s).strings = t.strings.filter (· ≠ s) := by
  induction t generalizing lo with
  | leaf str =>
    by_cases same : str = s <;> simp [remove, strings, CbTree.strings, same]
  | node byte otherbits child0 child1 ih0 ih1 =>
    obtain ⟨k, bound, rfl, above, split, left, right⟩ := wf
    have keep : ∀ {l : List CString}, s ∉ l → l.filter (· ≠ s) = l := by
      intro l absent
      exact List.filter_eq_self.mpr fun x member => by
        simpa using ne_of_mem_of_not_mem member absent
    simp only [remove, strings, List.filter_append, direction_eq_zero bound]
    cases bit : bitAt s (8 * byte + k) with
    | false =>
      have absent : s ∉ child1.strings := fun member => by simp [split.one s member] at bit
      rw [keep absent, ← ih0 left]
      simp only [if_true]
      cases child0.remove s <;> simp [CbTree.strings, strings]
    | true =>
      have absent : s ∉ child0.strings := fun member => by simp [split.zero s member] at bit
      rw [keep absent, ← ih1 right]
      simp only [Bool.true_eq_false, if_false]
      cases child1.remove s <;> simp [CbTree.strings, strings]

theorem CbNode.wf_remove {lo : Nat} {t t' : CbNode} (wf : t.WF lo) {s : CString}
    (rest : t.remove s = some t') : t'.WF lo := by
  induction t generalizing lo t' with
  | leaf str =>
    simp only [remove] at rest
    split at rest
    · cases rest
    · cases rest; trivial
  | node byte otherbits child0 child1 ih0 ih1 =>
    obtain ⟨k, bound, rfl, above, split, left, right⟩ := wf
    have fewer : ∀ {c c' : CbNode}, c.WF (8 * byte + k + 1) → c.remove s = some c' →
        ∀ x ∈ c'.strings, x ∈ c.strings := by
      intro c c' inside same x member
      have filtered := strings_remove inside s
      rw [same] at filtered
      have kept : x ∈ c.strings.filter (· ≠ s) := filtered ▸ member
      exact List.mem_of_mem_filter kept
    simp only [remove] at rest
    split at rest
    · cases removed : child0.remove s with
      | none =>
        simp only [removed, Option.some.injEq] at rest
        exact rest ▸ right.mono (by omega)
      | some c =>
        simp only [removed, Option.some.injEq] at rest
        subst rest
        exact ⟨k, bound, rfl, above, split.mono (fewer left removed) (fun _ => id), ih0 left removed, right⟩
    · cases removed : child1.remove s with
      | none =>
        simp only [removed, Option.some.injEq] at rest
        exact rest ▸ left.mono (by omega)
      | some c =>
        simp only [removed, Option.some.injEq] at rest
        subst rest
        exact ⟨k, bound, rfl, above, split.mono (fun _ => id) (fewer right removed), left, ih1 right removed⟩

/-! ## Walks -/

/-- Below a node that looks past the prefix, the walk no longer moves. -/
theorem prefixTop_eq_top {lo : Nat} {s : CString} {t : CbNode} (wf : t.WF lo) (past : 8 * s.length ≤ lo)
    (top : CbNode) : prefixTop s top t = top := by
  induction t generalizing lo with
  | leaf => rfl
  | node byte otherbits child0 child1 ih0 ih1 =>
    obtain ⟨k, bound, rfl, above, split, left, right⟩ := wf
    have outside : ¬ byte < s.length := by omega
    simp only [prefixTop, if_neg outside]
    split
    · exact ih0 left (by omega)
    · exact ih1 right (by omega)

/-- The top of a walk is a subtree. -/
theorem CbNode.wf_prefixTop (s : CString) {lo lo' : Nat} {top t : CbNode} (wfTop : top.WF lo') (wf : t.WF lo) :
    ∃ lo, (prefixTop s top t).WF lo := by
  induction t generalizing top lo lo' with
  | leaf => exact ⟨lo', wfTop⟩
  | node byte otherbits child0 child1 ih0 ih1 =>
    obtain ⟨k, bound, rfl, above, split, left, right⟩ := wf
    simp only [prefixTop]
    split
    · split
      · exact ih0 left left
      · exact ih0 wfTop left
    · split
      · exact ih1 right right
      · exact ih1 wfTop right

theorem bitAt_of_isPrefix {s t : CString} (pre : s <+: t) {n : Nat} (inside : n < 8 * s.length) :
    bitAt t n = bitAt s n :=
  bitAt_of_ubyte (ubyte_of_isPrefix pre (by omega))

theorem CbNode.exists_mem (t : CbNode) : ∃ s, s ∈ t.strings := ⟨_, t.locate_mem []⟩

/-- Wherever another string first departs from `x` within the length of `s`, `x` goes on as `s` does. -/
def Reaches (strings : List CString) (s x : CString) : Prop :=
  ∀ y ∈ strings, ∀ n < 8 * s.length, (∀ m < n, bitAt x m = bitAt y m) → bitAt x n ≠ bitAt y n → bitAt x n = bitAt s n

/-- The strings of one side depart from all of the other side in the deciding bit. -/
theorem Splits.reaches {n : Nat} {own other strings : List CString} {s x : CString} (inside : n < 8 * s.length)
    (first : ∀ y ∈ own ++ other, ∀ m < n, bitAt x m = bitAt y m) (differ : ∀ y ∈ other, bitAt x n ≠ bitAt y n)
    (present : ∃ y, y ∈ other) (all : ∀ y, y ∈ strings ↔ y ∈ own ∨ y ∈ other) :
    Reaches strings s x ↔ bitAt x n = bitAt s n ∧ Reaches own s x := by
  constructor
  · intro reaches
    obtain ⟨y, member⟩ := present
    refine ⟨?_, fun z own => reaches z ((all z).mpr (.inl own))⟩
    exact reaches y ((all y).mpr (.inr member)) n inside (first y (List.mem_append_right _ member)) (differ y member)
  · rintro ⟨bit, reaches⟩ y member m bound agree depart
    rcases (all y).mp member with member | member
    · exact reaches y member m bound agree depart
    · rcases Nat.lt_trichotomy m n with before | rfl | after
      · exact absurd (first y (List.mem_append_right _ member) m before) depart
      · exact bit
      · exact absurd (agree n after) (differ y member)

/-- A walk visits the strings its descent reaches. -/
theorem CbNode.mem_prefixTop_iff {lo : Nat} {s : CString} {t : CbNode} (wf : t.WF lo) (x : CString) :
    x ∈ (prefixTop s t t).strings ↔ x ∈ t.strings ∧ Reaches t.strings s x := by
  induction t generalizing lo with
  | leaf str =>
    simp only [prefixTop, strings, List.mem_singleton]
    refine ⟨?_, And.left⟩
    rintro rfl
    refine ⟨rfl, fun y member n _ _ depart => ?_⟩
    rw [List.mem_singleton.mp member] at depart
    exact absurd rfl depart
  | node byte otherbits child0 child1 ih0 ih1 =>
    obtain ⟨k, bound, rfl, above, split, left, right⟩ := wf
    by_cases inside : byte < s.length
    · have onZero : x ∈ child0.strings → (Reaches (child0.strings ++ child1.strings) s x ↔
          bitAt x (8 * byte + k) = bitAt s (8 * byte + k) ∧ Reaches child0.strings s x) := fun member => by
        refine Splits.reaches (by omega) (fun y other => split.agree x (List.mem_append_left _ member) y other) ?_
          child1.exists_mem fun y => List.mem_append
        intro y other
        rw [split.zero x member, split.one y other]
        exact Bool.false_ne_true
      have onOne : x ∈ child1.strings → (Reaches (child0.strings ++ child1.strings) s x ↔
          bitAt x (8 * byte + k) = bitAt s (8 * byte + k) ∧ Reaches child1.strings s x) := fun member => by
        refine Splits.reaches (by omega) (fun y other => ?_) ?_ child0.exists_mem fun y => List.mem_append.trans or_comm
        · exact split.agree x (List.mem_append_right _ member) y (List.mem_append.mpr (List.mem_append.mp other).symm)
        · intro y other
          rw [split.one x member, split.zero y other]
          exact Bool.false_ne_true.symm
      simp only [prefixTop, if_pos inside, direction_eq_zero bound, strings, List.mem_append]
      cases bit : bitAt s (8 * byte + k) with
      | false =>
        simp only [if_true, ih0 left]
        constructor
        · rintro ⟨member, reaches⟩
          exact ⟨.inl member, (onZero member).mpr ⟨by rw [split.zero x member, bit], reaches⟩⟩
        · rintro ⟨member | member, reaches⟩
          · exact ⟨member, ((onZero member).mp reaches).2⟩
          · have same := ((onOne member).mp reaches).1
            rw [split.one x member, bit] at same
            cases same
      | true =>
        simp only [Bool.true_eq_false, if_false, ih1 right]
        constructor
        · rintro ⟨member, reaches⟩
          exact ⟨.inr member, (onOne member).mpr ⟨by rw [split.one x member, bit], reaches⟩⟩
        · rintro ⟨member | member, reaches⟩
          · have same := ((onZero member).mp reaches).1
            rw [split.zero x member, bit] at same
            cases same
          · exact ⟨member, ((onOne member).mp reaches).2⟩
    · have still : prefixTop s (node byte (bitMask k) child0 child1) (node byte (bitMask k) child0 child1) =
          node byte (bitMask k) child0 child1 := by
        simp only [prefixTop, if_neg inside]
        split
        · exact prefixTop_eq_top left (by omega) _
        · exact prefixTop_eq_top right (by omega) _
      rw [still]
      -- all strings agree up to a bit behind the prefix
      refine ⟨fun member => ⟨member, fun y other n small _ depart => ?_⟩, And.left⟩
      exact absurd (split.agree x member y other n (by omega)) depart

/-- Once a string with the prefix is there, these are the strings that have it. -/
theorem reaches_iff_isPrefix {strings : List CString} {s x y : CString} (present : y ∈ strings) (pre : s <+: y) :
    Reaches strings s x ↔ s <+: x := by
  constructor
  · intro reaches
    have same : ∀ n, n < 8 * s.length → bitAt x n = bitAt y n := by
      intro n
      induction n using Nat.strongRecOn with
      | ind n ih =>
        intro inside
        by_contra depart
        have own := reaches y present n inside (fun m before => ih m before (by omega)) depart
        exact depart (own.trans (bitAt_of_isPrefix pre inside).symm)
    apply isPrefix_of_ubyte
    intro i small
    apply ubyte_eq_of_bits
    intro j _
    rw [same (8 * i + j) (by omega)]
    exact (bitAt_of_isPrefix pre (by omega)).symm
  · exact fun own z _ n inside _ _ => bitAt_of_isPrefix own inside

/-- A walk whose prefix occurs in the tree visits exactly the strings that have it. -/
theorem CbNode.mem_prefixTop {lo : Nat} {s y : CString} {t : CbNode} (wf : t.WF lo)
    (present : y ∈ t.strings) (pre : s <+: y) (x : CString) :
    x ∈ (prefixTop s t t).strings ↔ x ∈ t.strings ∧ s <+: x := by
  rw [mem_prefixTop_iff wf, reaches_iff_isPrefix present pre]

/-! ## Canonicity -/

/-- The bit a root decides is the first one in which its strings differ. -/
theorem Splits.unique {n m : Nat} {left right left' right' : List CString}
    (first : Splits n left right) (second : Splits m left' right')
    (same : ∀ s, s ∈ left ++ right ↔ s ∈ left' ++ right')
    (zero : ∃ s, s ∈ left') (one : ∃ s, s ∈ right') : n ≤ m := by
  obtain ⟨s, left⟩ := zero
  obtain ⟨t, right⟩ := one
  by_contra later
  have agree := first.agree s ((same s).mpr (List.mem_append_left _ left))
    t ((same t).mpr (List.mem_append_right _ right)) m (by omega)
  rw [second.zero s left, second.one t right] at agree
  cases agree

theorem Splits.left_iff {n : Nat} {left right : List CString} (split : Splits n left right) (s : CString) :
    s ∈ left ↔ s ∈ left ++ right ∧ bitAt s n = false := by
  constructor
  · exact fun member => ⟨List.mem_append_left _ member, split.zero s member⟩
  · rintro ⟨member, bit⟩
    simpa [bit] using split.side member

theorem Splits.right_iff {n : Nat} {left right : List CString} (split : Splits n left right) (s : CString) :
    s ∈ right ↔ s ∈ left ++ right ∧ bitAt s n = true := by
  constructor
  · exact fun member => ⟨List.mem_append_right _ member, split.one s member⟩
  · rintro ⟨member, bit⟩
    simpa [bit] using split.side member

theorem CbNode.eq_of_strings {lo lo' : Nat} {t u : CbNode} (wf : t.WF lo) (wf' : u.WF lo')
    (same : ∀ s, s ∈ t.strings ↔ s ∈ u.strings) : t = u := by
  -- a node has two strings that differ in its own bit, so it is no leaf
  have two : ∀ {byte k : Nat} {child0 child1 : CbNode} {str : CString},
      Splits (8 * byte + k) child0.strings child1.strings →
      ¬ ∀ s ∈ child0.strings ++ child1.strings, s = str := by
    intro byte k child0 child1 str split all
    obtain ⟨s, left⟩ := child0.exists_mem
    obtain ⟨t, right⟩ := child1.exists_mem
    have zero := split.zero s left
    have one := split.one t right
    rw [all s (List.mem_append_left _ left)] at zero
    rw [all t (List.mem_append_right _ right), zero] at one
    cases one
  induction t generalizing u lo lo' with
  | leaf str =>
    cases u with
    | leaf other =>
      have equal : str = other := by simpa [strings] using same str
      rw [equal]
    | node byte otherbits child0 child1 =>
      obtain ⟨k, bound, mask, above, split, left, right⟩ := wf'
      exact absurd (fun s member => by simpa [strings] using (same s).mpr member) (two split)
  | node byte otherbits child0 child1 ih0 ih1 =>
    obtain ⟨k, bound, mask, above, split, left, right⟩ := wf
    cases u with
    | leaf other =>
      exact absurd (fun s member => by simpa [strings] using (same s).mp member) (two split)
    | node byte' otherbits' child0' child1' =>
      obtain ⟨j, small, mask', above', split', left', right'⟩ := wf'
      have position : 8 * byte + k = 8 * byte' + j := Nat.le_antisymm
        (split.unique split' same child0'.exists_mem child1'.exists_mem)
        (split'.unique split (fun s => (same s).symm) child0.exists_mem child1.exists_mem)
      have bytes : byte = byte' := by omega
      have bits : k = j := by omega
      subst bytes bits
      have zero : child0 = child0' := ih0 left left' fun s => by
        rw [split.left_iff, split'.left_iff]
        exact and_congr_left' (same s)
      have one : child1 = child1' := ih1 right right' fun s => by
        rw [split.right_iff, split'.right_iff]
        exact and_congr_left' (same s)
      rw [mask, mask', zero, one]

/-! ## Trees as sets -/

/-- A tree together with its invariant, as every `cb_tree_t` of the program is. -/
structure CbSet where
  tree : CbTree
  wf : tree.WF

namespace CbSet

instance : Membership CString CbSet := ⟨fun t s => s ∈ t.tree.strings⟩

instance (s : CString) (t : CbSet) : Decidable (s ∈ t) := inferInstanceAs (Decidable (s ∈ t.tree.strings))

theorem mem_def {t : CbSet} {s : CString} : s ∈ t ↔ s ∈ t.tree.strings := Iff.rfl

/-- Trees are canonical: one tree for each set of strings. -/
theorem ext {t u : CbSet} (same : ∀ s, s ∈ t ↔ s ∈ u) : t = u := by
  obtain ⟨tree, wf⟩ := t
  obtain ⟨tree', wf'⟩ := u
  congr 1
  cases tree with
  | none =>
    cases tree' with
    | none => rfl
    | some root' =>
      obtain ⟨s, member⟩ := root'.exists_mem
      have absent : s ∈ ([] : List CString) := (same s).mpr member
      cases absent
  | some root =>
    cases tree' with
    | none =>
      obtain ⟨s, member⟩ := root.exists_mem
      have absent : s ∈ ([] : List CString) := (same s).mp member
      cases absent
    | some root' => exact congrArg some (CbNode.eq_of_strings wf wf' same)

def empty : CbSet := ⟨cbTreeMake, trivial⟩

@[simp] theorem not_mem_empty (s : CString) : s ∉ empty := by
  simp [mem_def, empty, cbTreeMake, CbTree.strings]

theorem contains_iff (t : CbSet) (s : CString) : cbTreeContains t.tree s = true ↔ s ∈ t := by
  obtain ⟨tree, wf⟩ := t
  cases tree with
  | none => simp [cbTreeContains, mem_def, CbTree.strings]
  | some root => simpa [cbTreeContains, mem_def, CbTree.strings] using CbNode.locate_eq_iff wf s

theorem wf_insert (t : CbSet) (s : CString) :
    (cbTreeInsert t.tree s).1.WF ∧ ∀ x, x ∈ (cbTreeInsert t.tree s).1.strings ↔ x = s ∨ x ∈ t := by
  obtain ⟨tree, wf⟩ := t
  cases tree with
  | none => exact ⟨trivial, by simp [cbTreeInsert, mem_def, CbTree.strings, CbNode.strings]⟩
  | some root =>
    simp only [cbTreeInsert]
    cases found : differentByte (root.locate s) s with
    | none =>
      have located := (differentByte_eq_none _ _).mp found
      have member := (CbNode.locate_eq_iff wf s).mp located
      refine ⟨wf, fun x => ⟨.inr, ?_⟩⟩
      rintro (rfl | old)
      · exact member
      · exact old
    | some newbyte =>
      obtain ⟨newbyte, bits⟩ := newbyte
      obtain ⟨k, bound, mask, same, differ⟩ := newOtherbits_spec found
      simp only [mask]
      refine CbNode.insertAt_spec bound wf (Nat.zero_le _) same differ ?_
      rw [direction_eq_zero bound]
      cases old : bitAt (root.locate s) (8 * newbyte + k) <;>
        cases new : bitAt s (8 * newbyte + k) <;> simp [old, new] at differ ⊢

/-- `cb_tree_insert` -/
def insert (t : CbSet) (s : CString) : CbSet := ⟨(cbTreeInsert t.tree s).1, (t.wf_insert s).1⟩

@[simp] theorem mem_insert {t : CbSet} {s x : CString} : x ∈ t.insert s ↔ x = s ∨ x ∈ t :=
  (t.wf_insert s).2 x

theorem wf_delete (t : CbSet) (s : CString) :
    (cbTreeDelete t.tree s).1.WF ∧ ∀ x, x ∈ (cbTreeDelete t.tree s).1.strings ↔ x ∈ t ∧ x ≠ s := by
  obtain ⟨tree, wf⟩ := t
  cases tree with
  | none => exact ⟨trivial, by simp [cbTreeDelete, mem_def, CbTree.strings]⟩
  | some root =>
    simp only [cbTreeDelete]
    split
    · next missing =>
      have absent : s ∉ root.strings := mt (CbNode.locate_eq_iff wf s).mpr missing
      refine ⟨wf, fun x => ⟨fun member => ⟨member, ?_⟩, And.left⟩⟩
      exact ne_of_mem_of_not_mem member absent
    · constructor
      · cases removed : root.remove s with
        | none => trivial
        | some rest => exact CbNode.wf_remove wf removed
      · intro x
        rw [CbNode.strings_remove wf s]
        simp [mem_def, CbTree.strings]

/-- `cb_tree_delete` -/
def delete (t : CbSet) (s : CString) : CbSet := ⟨(cbTreeDelete t.tree s).1, (t.wf_delete s).1⟩

@[simp] theorem mem_delete {t : CbSet} {s x : CString} : x ∈ t.delete s ↔ x ∈ t ∧ x ≠ s :=
  (t.wf_delete s).2 x

theorem mem_walkPrefixed {t : CbSet} {s y : CString} (present : y ∈ t) (pre : s <+: y) (x : CString) :
    x ∈ cbTreeWalkPrefixed t.tree s ↔ x ∈ t ∧ s <+: x := by
  obtain ⟨tree, wf⟩ := t
  cases tree with
  | none => simp [mem_def, CbTree.strings] at present
  | some root => exact CbNode.mem_prefixTop wf present pre x

/-- The prefix of a walk need not occur in the tree. -/
theorem mem_walkPrefixed_iff {t : CbSet} {s : CString} (x : CString) :
    x ∈ cbTreeWalkPrefixed t.tree s ↔ x ∈ t ∧ Reaches t.tree.strings s x := by
  obtain ⟨tree, wf⟩ := t
  cases tree with
  | none => simp [mem_def, CbTree.strings, cbTreeWalkPrefixed]
  | some root => exact CbNode.mem_prefixTop_iff wf x

theorem mem_of_mem_walkPrefixed {t : CbSet} {s x : CString} (member : x ∈ cbTreeWalkPrefixed t.tree s) :
    x ∈ t :=
  ((mem_walkPrefixed_iff x).mp member).1

theorem nodup_walkPrefixed (t : CbSet) (s : CString) : (cbTreeWalkPrefixed t.tree s).Nodup := by
  obtain ⟨tree, wf⟩ := t
  cases tree with
  | none => exact List.nodup_nil
  | some root =>
    obtain ⟨lo, top⟩ := CbNode.wf_prefixTop s wf wf
    exact CbNode.nodup_strings top

end CbSet

end Rsvndump
