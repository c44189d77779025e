import Mathlib.Data.Nat.Bitwise
import Rsvndump.Critbit.Correctness

/-! Walks visit strings in the order of strcmp(). -/

set_option autoImplicit false

namespace Rsvndump

open Library

/-- `strcmp(s, t) < 0`: the order of the bytes as unsigned numbers. -/
def StrcmpLt (s t : CString) : Prop := CString.bytes s < CString.bytes t

instance (s t : CString) : Decidable (StrcmpLt s t) := inferInstanceAs (Decidable (CString.bytes s < CString.bytes t))

theorem ubyte_eq_getElem {s : CString} {i : Nat} (inside : i < (CString.bytes s).length) :
    (CString.bytes s)[i] = ubyte s i := by
  have bound : i < s.length := by simpa using inside
  simp [CString.bytes, ubyte, bound]

/-- The first bit in which two strings differ orders their first differing bytes. -/
theorem ubyte_lt_of_bits {s t : CString} {n : Nat} (agree : ∀ m < n, bitAt s m = bitAt t m)
    (zero : bitAt s n = false) (one : bitAt t n = true) : ubyte s (n / 8) < ubyte t (n / 8) := by
  rw [UInt8.lt_iff_toNat_lt]
  apply Nat.lt_of_testBit (7 - n % 8) zero one
  intro j higher
  by_cases small : j < 8
  · have bits := agree (8 * (n / 8) + (7 - j)) (by omega)
    have whole : (8 * (n / 8) + (7 - j)) / 8 = n / 8 := by omega
    have rest : 7 - (8 * (n / 8) + (7 - j)) % 8 = j := by omega
    simpa only [bitAt, whole, rest] using bits
  · have large : 2 ^ 8 ≤ 2 ^ j := Nat.pow_le_pow_right (by omega) (by omega)
    rw [Nat.testBit_lt_two_pow (Nat.lt_of_lt_of_le (ubyte s (n / 8)).toNat_lt large),
      Nat.testBit_lt_two_pow (Nat.lt_of_lt_of_le (ubyte t (n / 8)).toNat_lt large)]

theorem strcmpLt_of_bits {s t : CString} {n : Nat} (agree : ∀ m < n, bitAt s m = bitAt t m)
    (zero : bitAt s n = false) (one : bitAt t n = true) : StrcmpLt s t := by
  have earlier : ∀ j < n / 8, ubyte s j = ubyte t j := by
    intro j before
    apply ubyte_eq_of_bits
    intro k small
    exact agree _ (by omega)
  have less := ubyte_lt_of_bits agree zero one
  have insideRight : n / 8 < t.length := by
    apply Nat.lt_of_not_le
    intro past
    rw [ubyte_eq_zero.mpr past] at less
    exact absurd less (Nat.not_lt_zero _)
  have reaches : n / 8 ≤ s.length := by
    apply Nat.le_of_not_lt
    intro short
    have ended := earlier s.length short
    rw [ubyte_eq_zero.mpr (Nat.le_refl _)] at ended
    have past := ubyte_eq_zero.mp ended.symm
    omega
  apply List.lt_iff_exists.mpr
  have same : ∀ j (inLeft : j < (CString.bytes s).length) (inRight : j < (CString.bytes t).length),
      j < n / 8 → (CString.bytes s)[j] = (CString.bytes t)[j] := by
    intro j _ _ before
    rw [ubyte_eq_getElem, ubyte_eq_getElem, earlier j before]
  rcases Nat.lt_or_eq_of_le reaches with inside | ends
  · refine .inr ⟨n / 8, by simpa using inside, by simpa using insideRight, fun j before => same j _ _ before, ?_⟩
    rwa [ubyte_eq_getElem, ubyte_eq_getElem]
  · refine .inl ⟨?_, by simp; omega⟩
    apply List.ext_getElem
    · simp; omega
    · intro j first second
      have before : j < n / 8 := by simpa [ends] using first
      rw [List.getElem_take]
      exact same j _ _ before

/-- The left subtree of every node comes before the right one. -/
theorem CbNode.WF.sorted {lo : Nat} {t : CbNode} (wf : t.WF lo) : t.strings.Pairwise StrcmpLt := by
  induction t generalizing lo with
  | leaf str => exact List.pairwise_singleton _ _
  | node byte otherbits child0 child1 ih0 ih1 =>
    obtain ⟨k, bound, mask, above, split, left, right⟩ := wf
    apply List.pairwise_append.mpr
    refine ⟨ih0 left, ih1 right, ?_⟩
    intro s first t second
    apply strcmpLt_of_bits _ (split.zero s first) (split.one t second)
    exact split.agree s (List.mem_append_left _ first) t (List.mem_append_right _ second)

theorem CbSet.sorted_walkPrefixed (t : CbSet) (s : CString) : (cbTreeWalkPrefixed t.tree s).Pairwise StrcmpLt := by
  obtain ⟨tree, wf⟩ := t
  cases tree with
  | none => exact List.Pairwise.nil
  | some root =>
    obtain ⟨lo, top⟩ := CbNode.wf_prefixTop s wf wf
    exact top.sorted

end Rsvndump
