import Mathlib.Data.List.Basic

/-! Null-terminated strings and slash-separated paths.

A character carries the proof that it is not the terminator, so every list of
characters is the content of exactly one C string.
-/

set_option autoImplicit false

namespace Library

abbrev Bytes := List UInt8

/-- A byte other than the terminator. -/
structure CChar where
  byte : UInt8
  nonzero : byte ≠ 0
  deriving DecidableEq

abbrev CString := List CChar

def CChar.ofChar? (c : Char) : Option CChar :=
  if nonzero : UInt8.ofNat c.toNat ≠ 0 then some ⟨_, nonzero⟩ else none

/-- String literals of the source and of concrete inputs (ASCII only). -/
def cstr (s : String) : CString := s.toList.filterMap CChar.ofChar?

def slash : CChar := ⟨47, by decide⟩

/-- The characters without the terminator. -/
def CString.bytes (s : CString) : Bytes := s.map CChar.byte

/-- The C string stored at the front of a buffer. -/
def CString.ofBytes : Bytes → CString
  | [] => []
  | b :: rest => if nonzero : b ≠ 0 then ⟨b, nonzero⟩ :: CString.ofBytes rest else []

@[simp] theorem CString.ofBytes_append_zero (s : CString) (rest : Bytes) :
    CString.ofBytes (CString.bytes s ++ 0 :: rest) = s := by
  induction s with
  | nil => simp [bytes, ofBytes]
  | cons c s ih =>
    simpa [bytes, ofBytes, c.nonzero] using ih

@[simp] theorem CString.ofBytes_bytes (s : CString) : CString.ofBytes (CString.bytes s) = s := by
  induction s with
  | nil => rfl
  | cons c s ih => simpa [bytes, ofBytes, c.nonzero] using ih

@[simp] theorem CString.length_bytes (s : CString) : (CString.bytes s).length = s.length := by
  simp [bytes]

/-! ## Ancestors

`Below p q` holds of a path and everything beneath it; the empty path is above
every path. -/

def Below (p q : CString) : Prop := p = [] ∨ q = p ∨ p ++ [slash] <+: q

instance (p q : CString) : Decidable (Below p q) :=
  inferInstanceAs (Decidable (p = [] ∨ q = p ∨ p ++ [slash] <+: q))

/-- The test that a walk over all strings with prefix `p` makes on each of them. -/
theorem below_iff_char (p q : CString) :
    Below p q ↔ p = [] ∨ (p <+: q ∧ (q[p.length]? = none ∨ q[p.length]? = some slash)) := by
  constructor
  · rintro (rfl | rfl | ⟨t, rfl⟩)
    · exact .inl rfl
    · exact .inr ⟨List.prefix_rfl, .inl (by simp)⟩
    · exact .inr ⟨⟨slash :: t, by simp⟩, .inr (by simp)⟩
  · rintro (rfl | ⟨⟨t, rfl⟩, next⟩)
    · exact .inl rfl
    · cases t with
      | nil => exact .inr (.inl (by simp))
      | cons c t =>
        have found : c = slash := by simpa using next
        exact .inr (.inr ⟨t, by simp [found]⟩)

@[simp] theorem below_nil (q : CString) : Below [] q := .inl rfl

@[simp] theorem below_refl (p : CString) : Below p p := .inr (.inl rfl)

theorem below_slash (p t : CString) : Below p (p ++ slash :: t) := .inr (.inr ⟨t, by simp⟩)

theorem Below.isPrefix {p q : CString} (above : Below p q) : p <+: q := by
  obtain rfl | rfl | ⟨t, rfl⟩ := above
  · exact List.nil_prefix
  · exact List.prefix_rfl
  · exact ⟨slash :: t, by simp⟩

theorem Below.length_le {p q : CString} (above : Below p q) : p.length ≤ q.length :=
  above.isPrefix.length_le

theorem Below.eq_of_length {p q : CString} (above : Below p q) (same : q.length ≤ p.length) :
    p = q :=
  above.isPrefix.eq_of_length (Nat.le_antisymm above.length_le same)

@[simp] theorem below_nil_right {p : CString} : Below p [] ↔ p = [] :=
  ⟨fun above => List.prefix_nil.mp above.isPrefix, fun empty => .inl empty⟩

/-- A proper ancestor other than the root is followed by a separator. -/
theorem Below.exists_rest {p q : CString} (above : Below p q) (nonempty : p ≠ []) (proper : q ≠ p) :
    ∃ t, q = p ++ slash :: t := by
  obtain rfl | rfl | ⟨t, rfl⟩ := above
  · exact absurd rfl nonempty
  · exact absurd rfl proper
  · exact ⟨t, by simp⟩

theorem Below.trans {p q r : CString} (first : Below p q) (second : Below q r) : Below p r := by
  obtain rfl | rfl | ⟨t, rfl⟩ := first
  · exact below_nil r
  · exact second
  · obtain empty | rfl | ⟨u, rfl⟩ := second
    · simp at empty
    · exact .inr (.inr ⟨t, rfl⟩)
    · exact .inr (.inr ⟨t ++ slash :: u, by simp⟩)

theorem Below.antisymm {p q : CString} (first : Below p q) (second : Below q p) : p = q :=
  first.eq_of_length second.length_le

/-- The ancestors of one path form a chain. -/
theorem Below.linear {p q r : CString} (first : Below p r) (second : Below q r)
    (shorter : p.length ≤ q.length) : Below p q := by
  rw [below_iff_char] at first ⊢
  obtain rfl | ⟨prefixed, next⟩ := first
  · exact .inl rfl
  · have inside : p <+: q := List.prefix_of_prefix_length_le prefixed second.isPrefix shorter
    refine .inr ⟨inside, ?_⟩
    by_cases longer : p.length < q.length
    · obtain ⟨t, rfl⟩ := second.isPrefix
      rw [List.getElem?_append_left longer] at next
      exact next
    · exact .inl (by simpa using Nat.le_of_not_lt longer)

theorem Below.total {p q r : CString} (first : Below p r) (second : Below q r) :
    Below p q ∨ Below q p := by
  rcases Nat.le_total p.length q.length with shorter | longer
  · exact .inl (first.linear second shorter)
  · exact .inr (second.linear first longer)

end Library
