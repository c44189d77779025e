import Mathlib.Data.List.Basic
import Mathlib.Tactic.Common

/-! Texts written as literals and as copies of what has been written before.

A copy is made one item at a time, so that it may run into what it writes itself.
-/

set_option autoImplicit false

namespace Library

variable {A : Type}

inductive Element (A : Type) where
  | literal (data : List A)
  | copy (offset len : Nat)
  deriving DecidableEq, Repr

/-- The text after `len` items have been repeated from `offset` items before its end. -/
def copyBack (offset : Nat) : Nat → List A → List A
  | 0, out => out
  | len + 1, out => copyBack offset len (out ++ (out[out.length - offset]?).toList)

def expandOne (out : List A) : Element A → Option (List A)
  | .literal data => some (out ++ data)
  | .copy offset len => if 0 < offset ∧ offset ≤ out.length then some (copyBack offset len out) else none

/-- The text that is written behind `out`. -/
def expand (out : List A) (elements : List (Element A)) : Option (List A) := elements.foldlM expandOne out

/-- How much an element writes. -/
def Element.size : Element A → Nat
  | .literal data => data.length
  | .copy _ len => len

@[simp] theorem expand_nil (out : List A) : expand out [] = some out := rfl

theorem expand_cons (out : List A) (e : Element A) (elements : List (Element A)) :
    expand out (e :: elements) = (expandOne out e).bind fun out => expand out elements := rfl

theorem expand_append (out : List A) (elements more : List (Element A)) :
    expand out (elements ++ more) = (expand out elements).bind fun out => expand out more := by
  simp [expand, List.foldlM_append]

/-! ## Copies -/

variable {out : List A} {offset len : Nat}

theorem copyBack_add (offset m n : Nat) (out : List A) : copyBack offset (m + n) out = copyBack offset n (copyBack offset m out) := by
  induction m generalizing out with
  | zero => rw [Nat.zero_add, copyBack]
  | succ m ih => rw [Nat.succ_add, copyBack, copyBack, ih]

/-- One item more. -/
theorem copyBack_one (positive : 0 < offset) (back : offset ≤ out.length) :
    ∃ a, out[out.length - offset]? = some a ∧ copyBack offset 1 out = out ++ [a] := by
  have inside : out.length - offset < out.length := by omega
  refine ⟨_, List.getElem?_eq_getElem inside, ?_⟩
  rw [copyBack, copyBack, List.getElem?_eq_getElem inside, Option.toList_some]

/-- A copy writes as much as it says, behind what is there. -/
theorem copyBack_spec (positive : 0 < offset) (back : offset ≤ out.length) (len : Nat) :
    ∃ more, more.length = len ∧ copyBack offset len out = out ++ more := by
  induction len generalizing out with
  | zero => exact ⟨[], rfl, by rw [copyBack, List.append_nil]⟩
  | succ len ih =>
    have inside : out.length - offset < out.length := by omega
    rw [copyBack, List.getElem?_eq_getElem inside, Option.toList_some]
    obtain ⟨more, sized, made⟩ := @ih (out ++ [out[out.length - offset]]) (by rw [List.length_append]; omega)
    exact ⟨out[out.length - offset] :: more, by rw [List.length_cons, sized], by rw [made, List.append_assoc]; rfl⟩

theorem length_copyBack (positive : 0 < offset) (back : offset ≤ out.length) (len : Nat) :
    (copyBack offset len out).length = out.length + len := by
  obtain ⟨more, sized, made⟩ := copyBack_spec positive back len
  rw [made, List.length_append, sized]

/-- Items that repeat those before them are what a copy writes. -/
theorem copyBack_eq_take {whole : List A} {place : Nat} (positive : 0 < offset) (back : offset ≤ place)
    (inside : place + len ≤ whole.length) (repeats : ∀ i < len, whole[place + i - offset]? = whole[place + i]?) :
    copyBack offset len (whole.take place) = whole.take (place + len) := by
  induction len generalizing place with
  | zero => rw [copyBack, Nat.add_zero]
  | succ len ih =>
    have sized : (whole.take place).length = place := by
      rw [List.length_take]
      omega
    have first : (whole.take place)[(whole.take place).length - offset]? = whole[place]? := by
      rw [sized, List.getElem?_take_of_lt (by omega)]
      exact repeats 0 (by omega)
    rw [copyBack, first, ← List.take_add_one, ih (by omega) (by omega)]
    · congr 1
      omega
    · intro i small
      have next := repeats (i + 1) (by omega)
      rwa [show place + (i + 1) = place + 1 + i by omega] at next

/-- A copy no longer than its offset does not run into itself. -/
theorem copyBack_short (positive : 0 < offset) (back : offset ≤ out.length) (short : len ≤ offset) :
    copyBack offset len out = out ++ (out.drop (out.length - offset)).take len := by
  have sized : ((out.drop (out.length - offset)).take len).length = len := by
    rw [List.length_take, List.length_drop]
    omega
  have whole : (out ++ (out.drop (out.length - offset)).take len).length = out.length + len := by
    rw [List.length_append, sized]
  have repeats : ∀ i < len, (out ++ (out.drop (out.length - offset)).take len)[out.length + i - offset]? =
      (out ++ (out.drop (out.length - offset)).take len)[out.length + i]? := by
    intro i small
    rw [List.getElem?_append_left (by omega), List.getElem?_append_right (by omega), Nat.add_sub_cancel_left,
      List.getElem?_take_of_lt small, List.getElem?_drop]
    congr 1
    omega
  have copied := copyBack_eq_take positive back (Nat.le_of_eq whole.symm) repeats
  rwa [List.take_left, List.take_of_length_le (Nat.le_of_eq whole)] at copied

/-- What repeats with a period repeats with twice the period. -/
theorem copyBack_double (positive : 0 < offset) (back : offset ≤ out.length) (len : Nat) :
    copyBack (2 * offset) len (copyBack offset offset out) = copyBack offset (offset + len) out := by
  have periodic : ∀ n i, offset ≤ i → i < out.length + n → out.length ≤ i →
      (copyBack offset n out)[i - offset]? = (copyBack offset n out)[i]? := by
    intro n
    induction n with
    | zero => omega
    | succ n ih =>
      intro i low high long
      have sized := length_copyBack positive back n
      obtain ⟨a, found, made⟩ := copyBack_one positive (show offset ≤ (copyBack offset n out).length by omega)
      rw [copyBack_add, made]
      by_cases last : i = out.length + n
      · rw [last, List.getElem?_append_left (by omega), List.getElem?_append_right (by omega), ← sized, found]
        simp
      · rw [List.getElem?_append_left (by omega), List.getElem?_append_left (by omega)]
        exact ih i low (by omega) long
  have sized := length_copyBack positive back (offset + len)
  have inside : out.length + offset + len ≤ (copyBack offset (offset + len) out).length := by omega
  have repeats : ∀ i < len, (copyBack offset (offset + len) out)[out.length + offset + i - 2 * offset]? =
      (copyBack offset (offset + len) out)[out.length + offset + i]? := by
    intro i small
    have once := periodic (offset + len) (out.length + offset + i) (by omega) (by omega) (by omega)
    have twice := periodic (offset + len) (out.length + i) (by omega) (by omega) (by omega)
    rw [← once, show out.length + offset + i - offset = out.length + i by omega, ← twice]
    congr 1
    omega
  have taken := copyBack_eq_take (show 0 < 2 * offset by omega) (by omega) inside repeats
  have whole : out.length + offset + len = (copyBack offset (offset + len) out).length := by omega
  have half : out.length + offset = (copyBack offset offset out).length := (length_copyBack positive back offset).symm
  have back' : offset ≤ (copyBack offset offset out).length := by omega
  obtain ⟨more, -, made⟩ := copyBack_spec positive back' len
  rw [whole, List.take_length] at taken
  rw [← taken, copyBack_add, made, half, List.take_left]

/-! ## Texts -/

theorem expandOne_length {out' : List A} {e : Element A} (made : expandOne out e = some out') :
    out'.length = out.length + e.size := by
  cases e with
  | literal data =>
    simp only [expandOne, Option.some.injEq] at made
    rw [← made, List.length_append, Element.size]
  | copy offset len =>
    simp only [expandOne, Option.ite_none_right_eq_some, Option.some.injEq] at made
    obtain ⟨⟨positive, back⟩, rfl⟩ := made
    rw [length_copyBack positive back, Element.size]

theorem expand_length_le {out' : List A} {elements : List (Element A)} (made : expand out elements = some out') :
    out.length ≤ out'.length := by
  induction elements generalizing out with
  | nil =>
    rw [expand_nil, Option.some.injEq] at made
    exact Nat.le_of_eq (congrArg List.length made)
  | cons e elements ih =>
    rw [expand_cons] at made
    obtain ⟨mid, first, rest⟩ := Option.bind_eq_some_iff.mp made
    have grown := expandOne_length first
    exact Nat.le_trans (by omega) (ih rest)

/-- What stands before does not matter to copies that do not reach it. -/
theorem copyBack_behind (before : List A) (back : offset ≤ out.length) (len : Nat) :
    copyBack offset len (before ++ out) = before ++ copyBack offset len out := by
  induction len generalizing out with
  | zero => rfl
  | succ len ih =>
    rw [copyBack, copyBack, ← ih (by rw [List.length_append]; omega), ← List.append_assoc]
    rw [List.length_append, List.getElem?_append_right (by omega)]
    congr 4
    omega

theorem expand_behind {out' : List A} {elements : List (Element A)} (before : List A) (made : expand out elements = some out') :
    expand (before ++ out) elements = some (before ++ out') := by
  induction elements generalizing out with
  | nil =>
    rw [expand_nil, Option.some.injEq] at made
    rw [expand_nil, made]
  | cons e elements ih =>
    rw [expand_cons] at made ⊢
    obtain ⟨mid, first, rest⟩ := Option.bind_eq_some_iff.mp made
    have same : expandOne (before ++ out) e = some (before ++ mid) := by
      cases e with
      | literal data =>
        simp only [expandOne, Option.some.injEq] at first ⊢
        rw [← first, List.append_assoc]
      | copy offset len =>
        simp only [expandOne, Option.ite_none_right_eq_some, Option.some.injEq] at first ⊢
        obtain ⟨⟨positive, back⟩, rfl⟩ := first
        exact ⟨⟨positive, by rw [List.length_append]; omega⟩, copyBack_behind before back len⟩
    rw [same, Option.bind_some]
    exact ih rest

/-- Two blocks one behind the other. -/
theorem expand_blocks {first second : List A} {elements more : List (Element A)} (made : expand [] elements = some first)
    (made' : expand [] more = some second) : expand [] (elements ++ more) = some (first ++ second) := by
  have behind := expand_behind first made'
  rw [List.append_nil] at behind
  rw [expand_append, made, Option.bind_some, behind]

end Library
