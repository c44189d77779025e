import Rsvndump.Library.LittleEndian
import Rsvndump.Library.Lz77
import Rsvndump.Library.Varint

/-! The compressed format of snappy.c.

A stream is the length of the text and a sequence of elements. The low two bits of
a tag tell a literal from a copy, the others hold a length or a part of the offset,
and up to four bytes behind the tag hold the rest.
-/

set_option autoImplicit false

namespace Rsvndump.Snappy

open Library

/-! ## Lengths -/

/-- `*(ptr++)`, where reading at the limit gives no value. -/
def nextByte : Bytes → Option (Nat × Bytes)
  | [] => none
  | b :: rest => some (b.toNat, rest)

/-- One of the steps of `varint_parse32_with_limit`, which `goto done` or go on with the next one. -/
def varintGroup (shift : Nat) (next : Nat → Bytes → Option (Nat × Bytes)) (result : Nat) (ptr : Bytes) :
    Option (Nat × Bytes) := do
  let (b, ptr) ← nextByte ptr
  let result := result ||| (b &&& 127) <<< shift
  if b < 128 then return (result, ptr) else next result ptr

/-- The last step, whose group is cut at 32 bits. -/
def lastGroup (result : Nat) (ptr : Bytes) : Option (Nat × Bytes) := do
  let (b, ptr) ← nextByte ptr
  let result := result ||| (b &&& 127) <<< 28 % 4294967296
  if b < 16 then return (result, ptr) else none

/-- Attempts to parse a varint32; with it what is behind its last byte. -/
def varintParse32WithLimit (data : Bytes) : Option (Nat × Bytes) :=
  varintGroup 0 (varintGroup 7 (varintGroup 14 (varintGroup 21 lastGroup))) 0 data

def snappyUncompressedLength (start : Bytes) : Option Nat := (varintParse32WithLimit start).map Prod.fst

/-- The value `n` stored into an `unsigned char`. -/
def byteOf (n : Nat) : UInt8 := UInt8.ofNat n

/-- The bytes `varint_encode32` writes. -/
def varintEncode32 (v : Nat) : Bytes :=
  if v < 1 <<< 7 then [byteOf v]
  else if v < 1 <<< 14 then [byteOf (v ||| 128), byteOf (v >>> 7)]
  else if v < 1 <<< 21 then [byteOf (v ||| 128), byteOf (v >>> 7 ||| 128), byteOf (v >>> 14)]
  else if v < 1 <<< 28 then
    [byteOf (v ||| 128), byteOf (v >>> 7 ||| 128), byteOf (v >>> 14 ||| 128), byteOf (v >>> 21)]
  else
    [byteOf (v ||| 128), byteOf (v >>> 7 ||| 128), byteOf (v >>> 14 ||| 128), byteOf (v >>> 21 ||| 128), byteOf (v >>> 28)]

/-! ## Tags -/

/-- The lookup table of the decompressor: the length in bits 0 to 7, the upper part of the
offset in bits 8 to 10 and the number of extra bytes in bits 11 to 13. -/
def charTable : List Nat := [
  0x0001, 0x0804, 0x1001, 0x2001, 0x0002, 0x0805, 0x1002, 0x2002,
  0x0003, 0x0806, 0x1003, 0x2003, 0x0004, 0x0807, 0x1004, 0x2004,
  0x0005, 0x0808, 0x1005, 0x2005, 0x0006, 0x0809, 0x1006, 0x2006,
  0x0007, 0x080a, 0x1007, 0x2007, 0x0008, 0x080b, 0x1008, 0x2008,
  0x0009, 0x0904, 0x1009, 0x2009, 0x000a, 0x0905, 0x100a, 0x200a,
  0x000b, 0x0906, 0x100b, 0x200b, 0x000c, 0x0907, 0x100c, 0x200c,
  0x000d, 0x0908, 0x100d, 0x200d, 0x000e, 0x0909, 0x100e, 0x200e,
  0x000f, 0x090a, 0x100f, 0x200f, 0x0010, 0x090b, 0x1010, 0x2010,
  0x0011, 0x0a04, 0x1011, 0x2011, 0x0012, 0x0a05, 0x1012, 0x2012,
  0x0013, 0x0a06, 0x1013, 0x2013, 0x0014, 0x0a07, 0x1014, 0x2014,
  0x0015, 0x0a08, 0x1015, 0x2015, 0x0016, 0x0a09, 0x1016, 0x2016,
  0x0017, 0x0a0a, 0x1017, 0x2017, 0x0018, 0x0a0b, 0x1018, 0x2018,
  0x0019, 0x0b04, 0x1019, 0x2019, 0x001a, 0x0b05, 0x101a, 0x201a,
  0x001b, 0x0b06, 0x101b, 0x201b, 0x001c, 0x0b07, 0x101c, 0x201c,
  0x001d, 0x0b08, 0x101d, 0x201d, 0x001e, 0x0b09, 0x101e, 0x201e,
  0x001f, 0x0b0a, 0x101f, 0x201f, 0x0020, 0x0b0b, 0x1020, 0x2020,
  0x0021, 0x0c04, 0x1021, 0x2021, 0x0022, 0x0c05, 0x1022, 0x2022,
  0x0023, 0x0c06, 0x1023, 0x2023, 0x0024, 0x0c07, 0x1024, 0x2024,
  0x0025, 0x0c08, 0x1025, 0x2025, 0x0026, 0x0c09, 0x1026, 0x2026,
  0x0027, 0x0c0a, 0x1027, 0x2027, 0x0028, 0x0c0b, 0x1028, 0x2028,
  0x0029, 0x0d04, 0x1029, 0x2029, 0x002a, 0x0d05, 0x102a, 0x202a,
  0x002b, 0x0d06, 0x102b, 0x202b, 0x002c, 0x0d07, 0x102c, 0x202c,
  0x002d, 0x0d08, 0x102d, 0x202d, 0x002e, 0x0d09, 0x102e, 0x202e,
  0x002f, 0x0d0a, 0x102f, 0x202f, 0x0030, 0x0d0b, 0x1030, 0x2030,
  0x0031, 0x0e04, 0x1031, 0x2031, 0x0032, 0x0e05, 0x1032, 0x2032,
  0x0033, 0x0e06, 0x1033, 0x2033, 0x0034, 0x0e07, 0x1034, 0x2034,
  0x0035, 0x0e08, 0x1035, 0x2035, 0x0036, 0x0e09, 0x1036, 0x2036,
  0x0037, 0x0e0a, 0x1037, 0x2037, 0x0038, 0x0e0b, 0x1038, 0x2038,
  0x0039, 0x0f04, 0x1039, 0x2039, 0x003a, 0x0f05, 0x103a, 0x203a,
  0x003b, 0x0f06, 0x103b, 0x203b, 0x003c, 0x0f07, 0x103c, 0x203c,
  0x0801, 0x0f08, 0x103d, 0x203d, 0x1001, 0x0f09, 0x103e, 0x203e,
  0x1801, 0x0f0a, 0x103f, 0x203f, 0x2001, 0x0f0b, 0x1040, 0x2040]

/-- Mapping from 0 to 4 to a mask for as many low bytes. -/
def wordmask : List Nat := [0, 0xff, 0xffff, 0xffffff, 0xffffffff]

/-- How many bytes behind the tag belong to it. -/
def extraBytes (c : Nat) : Nat :=
  if c % 4 = 0 then (if c / 4 < 60 then 0 else c / 4 - 59)
  else if c % 4 = 1 then 1
  else if c % 4 = 2 then 2
  else 4

/-- The element at the front of a stream and what is behind it. The length of a literal is counted
in 32 bits. -/
def readElement : Bytes → Option (Element UInt8 × Bytes)
  | [] => none
  | tag :: rest =>
      let c := tag.toNat
      if rest.length < extraBytes c then none
      else
        let value := ofLittle (rest.take (extraBytes c))
        let rest := rest.drop (extraBytes c)
        if c % 4 = 0 then
          let len := if c / 4 < 60 then c / 4 + 1 else (value + 1) % 4294967296
          if rest.length < len then none else some (.literal (rest.take len), rest.drop len)
        else if c % 4 = 1 then some (.copy (c / 32 * 256 + value) (c / 4 % 8 + 4), rest)
        else some (.copy value (c / 4 + 1), rest)

/-- Every element has a tag, so as many rounds as bytes are enough. -/
def readElementsLoop : Nat → Bytes → Option (List (Element UInt8))
  | _, [] => some []
  | 0, _ :: _ => none
  | fuel + 1, data => do
      let (e, rest) ← readElement data
      let elements ← readElementsLoop fuel rest
      return e :: elements

def readElements (data : Bytes) : Option (List (Element UInt8)) := readElementsLoop data.length data

/-- The text of a stream, as long as its front says. -/
def textOf (data : Bytes) : Option Bytes := do
  let (len, rest) ← varintParse32WithLimit data
  let elements ← readElements rest
  let text ← expand [] elements
  if text.length = len then return text else none

/-! ## Both readers of a length -/

theorem low_bits (b : Nat) : b &&& 127 = b % 128 := Nat.and_two_pow_sub_one_eq_mod b 7

/-- A group of bits above those of a smaller number. -/
theorem or_group {a k : Nat} (small : a < 2 ^ k) (b : Nat) : a ||| b <<< k = a + 2 ^ k * b := by
  rw [Nat.or_comm, ← Nat.shiftLeft_add_eq_or_of_lt small, Nat.shiftLeft_eq, Nat.mul_comm, Nat.add_comm]

theorem or_high_bit (n : Nat) : byteOf (n ||| 128) = UInt8.ofNat (n % 128 + 128) := by
  have bytes : ∀ m : Fin 256, m.val ||| 128 = m.val % 128 + 128 := by decide +kernel
  have low : (n ||| 128) % 2 ^ 8 = n % 2 ^ 8 ||| 128 := Nat.or_mod_two_pow
  have byte : n % 2 ^ 8 ||| 128 = n % 2 ^ 8 % 128 + 128 := bytes ⟨n % 2 ^ 8, Nat.mod_lt _ (by decide)⟩
  refine UInt8.toNat_inj.mp ?_
  rw [byteOf, UInt8.toNat_ofNat', UInt8.toNat_ofNat', low, byte]
  omega

/-- The unrolled encoder writes the groups of seven bits. -/
theorem varintEncode32_eq {v : Nat} (fits : v < 4294967296) : varintEncode32 v = varint v := by
  have shift : ∀ n k, n >>> k = n / 2 ^ k := fun n k => Nat.shiftRight_eq_div_pow n k
  unfold varintEncode32
  simp only [or_high_bit, shift]
  split
  · rw [varint_small (by omega)]
    rfl
  · rw [varint_large (by omega)]
    split
    · rw [varint_small (by omega)]
      rfl
    · rw [varint_large (n := v / 128) (by omega)]
      split
      · rw [varint_small (by omega), Nat.div_div_eq_div_mul]
        rfl
      · rw [varint_large (n := v / 128 / 128) (by omega), Nat.div_div_eq_div_mul]
        split
        · rw [varint_small (by omega), Nat.div_div_eq_div_mul]
          rfl
        · rw [varint_large (n := v / (128 * 128) / 128) (by omega), varint_small (by omega), Nat.div_div_eq_div_mul,
            Nat.div_div_eq_div_mul]
          rfl

/-- Goes on with a number of which the groups up to `shift` are known. -/
def Continues (shift count : Nat) (next : Nat → Bytes → Option (Nat × Bytes)) : Prop :=
  ∀ result < 2 ^ shift, ∀ ptr, next result ptr = (readVarint count ptr).bind fun read =>
    if result + 2 ^ shift * read.1 < 4294967296 then some (result + 2 ^ shift * read.1, read.2) else none

theorem continues_group {shift count : Nat} {next : Nat → Bytes → Option (Nat × Bytes)} (small : shift + 7 ≤ 28)
    (rest : Continues (shift + 7) count next) : Continues shift (count + 1) (varintGroup shift next) := by
  intro result bound ptr
  have power : 2 ^ (shift + 7) = 2 ^ shift * 128 := Nat.pow_add 2 shift 7
  have fits : 2 ^ (shift + 7) ≤ 2 ^ 28 := Nat.pow_le_pow_right (by decide) small
  cases ptr with
  | nil => rfl
  | cons b ptr =>
    have group : 2 ^ shift * (b.toNat % 128) + 2 ^ shift ≤ 2 ^ shift * 128 := by
      rw [← Nat.mul_succ]
      exact Nat.mul_le_mul_left _ (Nat.mod_lt _ (by decide))
    simp only [varintGroup, nextByte, readVarint, Option.bind_eq_bind, Option.bind_some, low_bits, or_group bound]
    by_cases last : b.toNat < 128
    · rw [Nat.mod_eq_of_lt last] at group ⊢
      rw [if_pos last, if_pos last, Option.bind_some]
      dsimp only
      rw [if_pos (by omega)]
      rfl
    · rw [if_neg last, if_neg last, rest _ (by omega) ptr, Option.bind_map]
      congr 1
      funext read
      have sum : result + 2 ^ shift * (b.toNat % 128) + 2 ^ (shift + 7) * read.1 =
          result + 2 ^ shift * (b.toNat % 128 + 128 * read.1) := by
        rw [power, Nat.mul_add, Nat.mul_assoc, Nat.add_assoc]
      rw [sum]
      rfl

theorem continues_last : Continues 28 1 lastGroup := by
  intro result bound ptr
  cases ptr with
  | nil => rfl
  | cons b ptr =>
    have byte := b.toNat_lt
    simp only [lastGroup, nextByte, readVarint, Option.bind_eq_bind, Option.bind_some, low_bits]
    by_cases fits : b.toNat < 16
    · have group : (b.toNat % 128) <<< 28 % 4294967296 = b.toNat <<< 28 := by
        rw [Nat.shiftLeft_eq, Nat.shiftLeft_eq]
        omega
      rw [if_pos fits, if_pos (by omega), Option.bind_some, group, or_group bound, if_pos (by omega)]
      rfl
    · rw [if_neg fits]
      by_cases last : b.toNat < 128
      · rw [if_pos last, Option.bind_some, if_neg (by omega)]
      · rw [if_neg last]
        rfl

/-- The unrolled parser reads a number of at most five groups that fits 32 bits. -/
theorem varintParse32WithLimit_eq (data : Bytes) :
    varintParse32WithLimit data = (readVarint 5 data).bind fun read => if read.1 < 4294967296 then some read else none := by
  have parsed : Continues 0 5 (varintGroup 0 (varintGroup 7 (varintGroup 14 (varintGroup 21 lastGroup)))) :=
    continues_group (by decide) (continues_group (by decide) (continues_group (by decide) (continues_group (by decide) continues_last)))
  rw [varintParse32WithLimit, parsed 0 (by decide) data]
  simp only [Nat.pow_zero, Nat.one_mul, Nat.zero_add]

theorem varintParse32WithLimit_varint {v : Nat} (fits : v < 4294967296) (rest : Bytes) :
    varintParse32WithLimit (varint v ++ rest) = some (v, rest) := by
  rw [varintParse32WithLimit_eq, readVarint_varint (by omega), Option.bind_some, if_pos fits]

/-! ## Elements -/

/-- The table holds what the tag says. -/
theorem charTable_spec {c : Nat} (byte : c < 256) :
    ∃ entry, charTable[c]? = some entry ∧ entry >>> 11 = extraBytes c ∧
      (c % 4 = 1 → entry &&& 0xff = c / 4 % 8 + 4 ∧ entry &&& 0x700 = c / 32 * 256) ∧
      (c % 4 ≠ 0 → c % 4 ≠ 1 → entry &&& 0xff = c / 4 + 1 ∧ entry &&& 0x700 = 0) := by
  have whole : ∀ c : Fin 256, charTable[c.val]?.any (fun entry => decide (entry >>> 11 = extraBytes c.val ∧
      (c.val % 4 = 1 → entry &&& 0xff = c.val / 4 % 8 + 4 ∧ entry &&& 0x700 = c.val / 32 * 256) ∧
      (c.val % 4 ≠ 0 → c.val % 4 ≠ 1 → entry &&& 0xff = c.val / 4 + 1 ∧ entry &&& 0x700 = 0))) = true := by
    decide +kernel
  have holds := whole ⟨c, byte⟩
  cases found : charTable[c]? with
  | none =>
    rw [found] at holds
    cases holds
  | some entry =>
    rw [found, Option.any_some] at holds
    exact ⟨entry, rfl, of_decide_eq_true holds⟩

theorem extraBytes_le {c : Nat} (byte : c < 256) : extraBytes c ≤ 4 := by
  unfold extraBytes
  split_ifs <;> omega

theorem and_wordmask {count : Nat} (few : count ≤ 4) (n : Nat) : ∃ mask, wordmask[count]? = some mask ∧ n &&& mask = n % 256 ^ count := by
  have mask : ∀ k, n &&& 2 ^ k - 1 = n % 2 ^ k := Nat.and_two_pow_sub_one_eq_mod n
  match count, few with
  | 0, _ => exact ⟨0, rfl, mask 0⟩
  | 1, _ => exact ⟨0xff, rfl, mask 8⟩
  | 2, _ => exact ⟨0xffff, rfl, mask 16⟩
  | 3, _ => exact ⟨0xffffff, rfl, mask 24⟩
  | 4, _ => exact ⟨0xffffffff, rfl, mask 32⟩

theorem readElement_shorter {data rest : Bytes} {e : Element UInt8} (found : readElement data = some (e, rest)) :
    rest.length < data.length := by
  cases data with
  | nil => cases found
  | cons tag data =>
    simp only [readElement] at found
    rw [List.length_cons]
    split_ifs at found <;> simp only [Option.some.injEq, Prod.mk.injEq] at found <;>
      (rw [← found.2]; simp only [List.length_drop]; omega)

theorem readElementsLoop_enough {fuel : Nat} {data : Bytes} (enough : data.length ≤ fuel) :
    readElementsLoop fuel data = readElements data := by
  induction fuel using Nat.strong_induction_on generalizing data with
  | _ fuel ih =>
    unfold readElements
    cases data with
    | nil => cases fuel <;> rfl
    | cons tag data =>
      rw [List.length_cons] at enough ⊢
      cases fuel with
      | zero => omega
      | succ fuel =>
        rw [readElementsLoop, readElementsLoop]
        · cases read : readElement (tag :: data) with
          | none => rfl
          | some found =>
            obtain ⟨e, rest⟩ := found
            have shorter := readElement_shorter read
            rw [List.length_cons] at shorter
            simp only [Option.bind_eq_bind, Option.bind_some]
            rw [ih fuel (by omega) (by omega)]
            by_cases same : data.length = fuel
            · rw [same, ih fuel (by omega) (by omega)]
            · rw [ih data.length (by omega) (by omega)]
        · simp
        · simp

@[simp] theorem readElements_nil : readElements [] = some [] := rfl

theorem readElements_cons {tag : UInt8} {data : Bytes} :
    readElements (tag :: data) = (readElement (tag :: data)).bind fun (e, rest) => (readElements rest).map (e :: ·) := by
  rw [readElements, List.length_cons, readElementsLoop]
  · cases read : readElement (tag :: data) with
    | none => rfl
    | some found =>
      obtain ⟨e, rest⟩ := found
      have shorter := readElement_shorter read
      rw [List.length_cons] at shorter
      simp only [Option.bind_eq_bind, Option.bind_some]
      rw [readElementsLoop_enough (by omega)]
      cases readElements rest <;> rfl
  · simp

end Rsvndump.Snappy
