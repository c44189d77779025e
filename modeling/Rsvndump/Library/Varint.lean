import Rsvndump.Library.CString
import Mathlib.Data.Nat.Bitwise

/-! Numbers in groups of seven bits, lowest first, each but the last with its high bit set. -/

set_option autoImplicit false

namespace Library

def varint (n : Nat) : Bytes :=
  if n < 128 then [UInt8.ofNat n] else UInt8.ofNat (n % 128 + 128) :: varint (n / 128)
termination_by n
decreasing_by omega

/-- The number at the front, of at most so many bytes, and what is behind it. -/
def readVarint : Nat → Bytes → Option (Nat × Bytes)
  | 0, _ => none
  | _ + 1, [] => none
  | count + 1, b :: rest =>
      if b.toNat < 128 then some (b.toNat, rest)
      else (readVarint count rest).map fun (n, rest) => (b.toNat % 128 + 128 * n, rest)

theorem varint_small {n : Nat} (small : n < 128) : varint n = [UInt8.ofNat n] := by
  rw [varint, if_pos small]

theorem varint_large {n : Nat} (large : 128 ≤ n) : varint n = UInt8.ofNat (n % 128 + 128) :: varint (n / 128) := by
  rw [varint, if_neg (by omega)]

theorem length_varint_le {count n : Nat} (fits : n < 128 ^ (count + 1)) : (varint n).length ≤ count + 1 := by
  induction count generalizing n with
  | zero => exact Nat.le_of_eq (by rw [varint_small (by omega), List.length_singleton])
  | succ count ih =>
    rw [Nat.pow_succ] at fits
    by_cases small : n < 128
    · rw [varint_small small, List.length_singleton]
      omega
    · rw [varint_large (by omega), List.length_cons]
      exact Nat.succ_le_succ (ih (by omega))

theorem readVarint_varint {count n : Nat} (fits : n < 128 ^ (count + 1)) (rest : Bytes) :
    readVarint (count + 1) (varint n ++ rest) = some (n, rest) := by
  induction count generalizing n with
  | zero =>
    have small : n < 128 := by omega
    have byte : (UInt8.ofNat n).toNat = n := by rw [UInt8.toNat_ofNat']; omega
    rw [varint_small small, List.singleton_append, readVarint, byte, if_pos small]
  | succ count ih =>
    rw [Nat.pow_succ] at fits
    by_cases small : n < 128
    · have byte : (UInt8.ofNat n).toNat = n := by rw [UInt8.toNat_ofNat']; omega
      rw [varint_small small, List.singleton_append, readVarint, byte, if_pos small]
    · have byte : (UInt8.ofNat (n % 128 + 128)).toNat = n % 128 + 128 := by rw [UInt8.toNat_ofNat']; omega
      rw [varint_large (by omega), List.cons_append, readVarint, byte, if_neg (by omega), ih (by omega), Option.map_some]
      simp only [Option.some.injEq, Prod.mk.injEq, and_true]
      omega

end Library
