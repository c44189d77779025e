import Mathlib.Algebra.GroupWithZero.Nat
import Mathlib.Data.List.TakeWhile
import Rsvndump.Library.CString

/-! The argument of --revision (main.c). -/

set_option autoImplicit false

namespace Rsvndump

open Library

/-! ## Conversions of sscanf -/

def isSpace (c : CChar) : Bool := decide (c.byte = 32) || (decide (9 ≤ c.byte) && decide (c.byte ≤ 13))

def isDigit (c : CChar) : Bool := decide (48 ≤ c.byte) && decide (c.byte ≤ 57)

/-- `%4s`: at most four characters up to a space. -/
def scanWord (s : CString) : Option (CString × CString) :=
  let s := s.dropWhile isSpace
  let word := (s.takeWhile fun c => !isSpace c).take 4
  if word = [] then none else some (word, s.drop word.length)

/-- `:` -/
def scanColon : CString → Option CString
  | c :: rest => if c.byte = 58 then some rest else none
  | [] => none

/-- A sign in front of a number. -/
def scanSign : CString → Bool × CString
  | c :: rest => if c.byte = 45 then (true, rest) else if c.byte = 43 then (false, rest) else (false, c :: rest)
  | [] => (false, [])

def longMax : Int := 9223372036854775807

/-- `%ld`; values outside of a `long` are replaced by the nearest one. -/
def scanLong (s : CString) : Option (Int × CString) :=
  let (negative, s) := scanSign (s.dropWhile isSpace)
  let digits := s.takeWhile isDigit
  let value : Int := (digits.foldl (fun n c => 10 * n + (c.byte.toNat - 48)) 0 : Nat)
  -- a sign alone is not a number
  if digits = [] then none
  else some (if negative then max (-value) (-longMax - 1) else min value longMax, s.drop digits.length)

/-- `%c` does not match, so the whole string has been read. -/
def atEnd {A : Type} (result : A) (rest : CString) : Option A := if rest = [] then some result else none

/-- `!strcasecmp(word, "HEAD")` -/
def isHead (word : CString) : Bool :=
  decide ((word.map fun c => if 65 ≤ c.byte ∧ c.byte ≤ 90 then c.byte + 32 else c.byte) = [104, 101, 97, 100])

/-! ## The schemes -/

def scanWords (str : CString) : Option (CString × CString) := do
  let (first, rest) ← scanWord str
  let (second, rest) ← scanWord (← scanColon rest)
  atEnd (first, second) rest

def scanLongWord (str : CString) : Option (Int × CString) := do
  let (start, rest) ← scanLong str
  let (word, rest) ← scanWord (← scanColon rest)
  atEnd (start, word) rest

def scanLongs (str : CString) : Option (Int × Int) := do
  let (start, rest) ← scanLong str
  let (stop, rest) ← scanLong (← scanColon rest)
  atEnd (start, stop) rest

def scanOneLong (str : CString) : Option Int := do
  let (stop, rest) ← scanLong str
  atEnd stop rest

def scanOneWord (str : CString) : Option CString := do
  let (word, rest) ← scanWord str
  atEnd word rest

/-- Parses a revision number (or range); -1 stands for HEAD. -/
def parseRevnum (str : CString) : Option (Int × Int) :=
  if (scanWords str).any fun words => isHead words.1 && isHead words.2 then some (-1, -1)
  else
    match (scanLongWord str).filter fun range => isHead range.2 with
    | some (start, _) => if start < 0 then none else some (start, -1)
    | none =>
        match scanLongs str with
        | some (start, stop) => if start < 0 ∨ stop < 0 ∨ stop < start then none else some (start, stop)
        | none =>
            match scanOneLong str with
            -- a single revision is the range that ends there
            | some stop => if stop < 1 then none else some (stop - 1, stop)
            | none => if (scanOneWord str).any isHead then some (-1, -1) else none

/-- A range starts at HEAD or at a revision, and it does not end before its start. -/
theorem parseRevnum_range {str : CString} {start stop : Int} (parsed : parseRevnum str = some (start, stop)) :
    (start = -1 ∧ stop = -1) ∨ (0 ≤ start ∧ (stop = -1 ∨ start ≤ stop)) := by
  unfold parseRevnum at parsed
  split at parsed
  · cases parsed
    exact .inl ⟨rfl, rfl⟩
  · split at parsed
    · split at parsed
      · cases parsed
      · next valid =>
        cases parsed
        exact .inr ⟨Int.not_lt.mp valid, .inl rfl⟩
    · split at parsed
      · split at parsed
        · cases parsed
        · cases parsed
          omega
      · split at parsed
        · split at parsed
          · cases parsed
          · cases parsed
            omega
        · split at parsed
          · cases parsed
            exact .inl ⟨rfl, rfl⟩
          · cases parsed

example : parseRevnum (cstr "3:head") = some (3, -1) := by decide

/-! ## The grammar -/

def colonChar : CChar := ⟨58, by decide⟩

def plusSign : CChar := ⟨43, by decide⟩

def minusSign : CChar := ⟨45, by decide⟩

def Blank (s : CString) : Prop := ∀ c ∈ s, isSpace c = true

/-- The value of a non-empty string of digits. -/
def Digits (s : CString) (n : Nat) : Prop :=
  s ≠ [] ∧ (∀ c ∈ s, isDigit c = true) ∧ n = s.foldl (fun n c => 10 * n + (c.byte.toNat - 48)) 0

/-- A number with white space in front of it and perhaps a sign. -/
inductive Number : CString → Int → Prop
  | plain {blank digits : CString} {n : Nat} : Blank blank → Digits digits n → Number (blank ++ digits) n
  | plus {blank digits : CString} {n : Nat} : Blank blank → Digits digits n → Number (blank ++ plusSign :: digits) n
  | minus {blank digits : CString} {n : Nat} : Blank blank → Digits digits n → Number (blank ++ minusSign :: digits) (-n)

/-- HEAD in any letter case, with white space in front of it. -/
inductive HeadWord : CString → Prop
  | mk {blank word : CString} : Blank blank → isHead word = true → HeadWord (blank ++ word)

/-- A revision or a range, with the start and the end it stands for. -/
inductive RevisionArg : CString → Int → Int → Prop
  | range {first second : CString} {n m : Int} : Number first n → Number second m → 0 ≤ n → n ≤ m →
      RevisionArg (first ++ colonChar :: second) n m
  | fromNumber {first second : CString} {n : Int} : Number first n → HeadWord second → 0 ≤ n →
      RevisionArg (first ++ colonChar :: second) n (-1)
  | heads {first second : CString} : HeadWord first → HeadWord second → RevisionArg (first ++ colonChar :: second) (-1) (-1)
  | head {word : CString} : HeadWord word → RevisionArg word (-1) (-1)
  | single {number : CString} {n : Int} : Number number n → 1 ≤ n → RevisionArg number (n - 1) n

/-- The string does not go on with a digit. -/
def NoDigit (rest : CString) : Prop := ∀ c, rest.head? = some c → isDigit c = false

/-- Without overflow: a number at the front, and a number behind a number and a colon, is a `long`. -/
def FitsLong (str : CString) : Prop := ∀ number rest n, Number number n → NoDigit rest →
  (str = number ++ rest ∨ ∃ first m, Number first m ∧ str = first ++ colonChar :: (number ++ rest)) →
  -longMax - 1 ≤ n ∧ n ≤ longMax

theorem digits_lt (text : CString) (filled : ∀ c ∈ text, isDigit c = true) (n : Nat) :
    text.foldl (fun n c => 10 * n + (c.byte.toNat - 48)) n < (n + 1) * 10 ^ text.length := by
  induction text generalizing n with
  | nil => simp
  | cons c text ih =>
    have small : c.byte.toNat ≤ 57 := by
      have digit := filled c List.mem_cons_self
      simp only [isDigit, Bool.and_eq_true, decide_eq_true_eq] at digit
      exact digit.2
    calc (c :: text).foldl (fun n c => 10 * n + (c.byte.toNat - 48)) n
        < (10 * n + (c.byte.toNat - 48) + 1) * 10 ^ text.length := ih (fun d member => filled d (List.mem_cons_of_mem c member)) _
      _ ≤ (10 * (n + 1)) * 10 ^ text.length := Nat.mul_le_mul_right _ (by omega)
      _ = (n + 1) * 10 ^ (c :: text).length := by rw [List.length_cons, Nat.pow_succ]; ac_rfl

theorem Number.bounds {text : CString} {n : Int} (number : Number text n) (short : text.length ≤ 18) :
    -longMax - 1 ≤ n ∧ n ≤ longMax := by
  have small : ∀ {digits : CString} {n : Nat}, Digits digits n → digits.length ≤ 18 → n < 1000000000000000000 := by
    intro digits n number short
    calc n < (0 + 1) * 10 ^ digits.length := number.2.2 ▸ digits_lt digits number.2.1 0
      _ ≤ 1 * 10 ^ 18 := Nat.mul_le_mul_left 1 (Nat.pow_le_pow_right (by decide) short)
  unfold longMax
  cases number with
  | plain _ digits =>
    have bound := small digits (by rw [List.length_append] at short; omega)
    omega
  | plus _ digits =>
    have bound := small digits (by rw [List.length_append, List.length_cons] at short; omega)
    omega
  | minus _ digits =>
    have bound := small digits (by rw [List.length_append, List.length_cons] at short; omega)
    omega

/-- Eighteen characters do not overflow. -/
theorem fitsLong_short {str : CString} (short : str.length ≤ 18) : FitsLong str := by
  intro text rest n number stops place
  apply number.bounds
  rcases place with rfl | ⟨first, m, firstNumber, rfl⟩
  · rw [List.length_append] at short
    omega
  · rw [List.length_append, List.length_cons, List.length_append] at short
    omega

/-! ## Numbers and words -/

theorem dropWhile_blank {blank rest : CString} (spaces : Blank blank) (text : ∀ c, rest.head? = some c → isSpace c = false) :
    (blank ++ rest).dropWhile isSpace = rest := by
  rw [List.dropWhile_append_of_pos spaces]
  cases rest with
  | nil => rfl
  | cons c rest => rw [List.dropWhile_cons, if_neg (by simp [text c rfl])]

theorem blank_split (s : CString) : ∃ blank, Blank blank ∧ s = blank ++ s.dropWhile isSpace :=
  ⟨s.takeWhile isSpace, fun _ member => List.mem_takeWhile_imp member, (List.takeWhile_append_dropWhile).symm⟩

theorem takeWhile_stops {p : CChar → Bool} {text rest : CString} (holds : ∀ c ∈ text, p c = true)
    (stops : ∀ c, rest.head? = some c → p c = false) : (text ++ rest).takeWhile p = text := by
  rw [List.takeWhile_append_of_pos holds]
  cases rest with
  | nil => simp
  | cons c rest => rw [List.takeWhile_cons, if_neg (by simp [stops c rfl]), List.append_nil]

theorem isDigit_notSpace {c : CChar} (digit : isDigit c = true) : isSpace c = false := by
  unfold isDigit at digit
  unfold isSpace
  grind

/-- What the conversion reads behind the white space and the sign. -/
theorem digits_scan {text rest : CString} {n : Nat} (digits : Digits text n) (stops : NoDigit rest) :
    (text ++ rest).takeWhile isDigit = text ∧ text ≠ [] ∧
      text.foldl (fun n c => 10 * n + (c.byte.toNat - 48)) 0 = n :=
  ⟨takeWhile_stops digits.2.1 stops, digits.1, digits.2.2.symm⟩

theorem Digits.head {text : CString} {n : Nat} (digits : Digits text n) (rest : CString) :
    ∃ c tail, text ++ rest = c :: tail ∧ isDigit c = true := by
  cases text with
  | nil => exact absurd rfl digits.1
  | cons c tail => exact ⟨c, tail ++ rest, rfl, digits.2.1 c List.mem_cons_self⟩

theorem scanSign_digit {c : CChar} (digit : isDigit c = true) (rest : CString) : scanSign (c :: rest) = (false, c :: rest) := by
  unfold isDigit at digit
  simp only [scanSign]
  rw [if_neg (by grind), if_neg (by grind)]

/-- A number that fits is converted to its value. -/
theorem scanLong_number {text rest : CString} {n : Int} (number : Number text n) (stops : NoDigit rest)
    (fits : -longMax - 1 ≤ n ∧ n ≤ longMax) : scanLong (text ++ rest) = some (n, rest) := by
  cases number with
  | @plain blank text n spaces digits =>
    obtain ⟨c, tail, front, digit⟩ := digits.head rest
    obtain ⟨taken, filled, value⟩ := digits_scan digits stops
    have skipped : ((blank ++ text) ++ rest).dropWhile isSpace = text ++ rest := by
      rw [List.append_assoc, dropWhile_blank spaces]
      intro d first
      rw [front] at first
      cases first
      exact isDigit_notSpace digit
    have signed : scanSign (text ++ rest) = (false, text ++ rest) := by rw [front, scanSign_digit digit]
    simp only [scanLong, skipped, signed, taken, if_neg filled, value, List.drop_left']
    simp [Int.min_eq_left fits.2]
  | @plus blank text n spaces digits =>
    obtain ⟨taken, filled, value⟩ := digits_scan digits stops
    have skipped : ((blank ++ plusSign :: text) ++ rest).dropWhile isSpace = plusSign :: (text ++ rest) := by
      rw [List.append_assoc, List.cons_append, dropWhile_blank spaces]
      intro d first
      cases first
      decide
    simp only [scanLong, skipped, show scanSign (plusSign :: (text ++ rest)) = (false, text ++ rest) from rfl, taken,
      if_neg filled, value]
    simp [Int.min_eq_left fits.2]
  | @minus blank text n spaces digits =>
    obtain ⟨taken, filled, value⟩ := digits_scan digits stops
    have skipped : ((blank ++ minusSign :: text) ++ rest).dropWhile isSpace = minusSign :: (text ++ rest) := by
      rw [List.append_assoc, List.cons_append, dropWhile_blank spaces]
      intro d first
      cases first
      decide
    simp only [scanLong, skipped, show scanSign (minusSign :: (text ++ rest)) = (true, text ++ rest) from rfl, taken,
      if_neg filled, value]
    simp [Int.max_eq_left fits.1]

theorem digits_split (s : CString) : ∃ digits rest, s = digits ++ rest ∧ (∀ c ∈ digits, isDigit c = true) ∧ NoDigit rest := by
  refine ⟨s.takeWhile isDigit, s.dropWhile isDigit, List.takeWhile_append_dropWhile.symm,
    fun _ member => List.mem_takeWhile_imp member, ?_⟩
  intro c first
  have stopped := List.head?_dropWhile_not isDigit s
  rw [first] at stopped
  exact stopped

theorem eq_of_byte {c d : CChar} (same : c.byte = d.byte) : c = d := by
  cases c
  cases d
  cases same
  rfl

theorem scanSign_cases (s : CString) : (∃ rest, s = minusSign :: rest ∧ scanSign s = (true, rest)) ∨
    (∃ rest, s = plusSign :: rest ∧ scanSign s = (false, rest)) ∨ scanSign s = (false, s) := by
  cases s with
  | nil => exact .inr (.inr rfl)
  | cons c rest =>
    simp only [scanSign]
    by_cases minus : c.byte = 45
    · exact .inl ⟨rest, by rw [show c = minusSign from eq_of_byte minus], by rw [if_pos minus]⟩
    · by_cases plus : c.byte = 43
      · exact .inr (.inl ⟨rest, by rw [show c = plusSign from eq_of_byte plus], by rw [if_neg minus, if_pos plus]⟩)
      · exact .inr (.inr (by rw [if_neg minus, if_neg plus]))

/-- What has been converted is a number, and no digit follows it. -/
theorem scanLong_reads {s rest : CString} {value : Int} (scanned : scanLong s = some (value, rest)) :
    ∃ text n, s = text ++ rest ∧ Number text n ∧ NoDigit rest ∧ (-longMax - 1 ≤ n ∧ n ≤ longMax → value = n) := by
  obtain ⟨blank, spaces, front⟩ := blank_split s
  obtain ⟨digits, tail, split, filled, stops⟩ := digits_split (scanSign (s.dropWhile isSpace)).2
  have taken : (digits ++ tail).takeWhile isDigit = digits := takeWhile_stops filled stops
  simp only [scanLong, split, taken] at scanned
  split at scanned
  · cases scanned
  next kept =>
  have number : Digits digits (digits.foldl (fun n c => 10 * n + (c.byte.toNat - 48)) 0) := ⟨kept, filled, rfl⟩
  simp only [List.drop_left', Option.some.injEq, Prod.mk.injEq] at scanned
  obtain ⟨rfl, rfl⟩ := scanned
  rcases scanSign_cases (s.dropWhile isSpace) with ⟨after, sign, signed⟩ | ⟨after, sign, signed⟩ | signed
  · rw [signed] at split
    refine ⟨_, _, ?_, .minus spaces number, stops, fun fits => ?_⟩
    · rw [List.append_assoc, List.cons_append, ← show after = digits ++ tail from split, ← sign, ← front]
    · rw [signed, if_pos rfl, Int.max_eq_left fits.1]
  · rw [signed] at split
    refine ⟨_, _, ?_, .plus spaces number, stops, fun fits => ?_⟩
    · rw [List.append_assoc, List.cons_append, ← show after = digits ++ tail from split, ← sign, ← front]
    · rw [signed, if_neg Bool.false_ne_true, Int.min_eq_left fits.2]
  · rw [signed] at split
    refine ⟨_, _, ?_, .plain spaces number, stops, fun fits => ?_⟩
    · rw [List.append_assoc, ← show s.dropWhile isSpace = digits ++ tail from split, ← front]
    · rw [signed, if_neg Bool.false_ne_true, Int.min_eq_left fits.2]

/-- HEAD consists of four letters. -/
theorem isHead_letters {word : CString} (head : isHead word = true) : word.length = 4 ∧ ∀ c ∈ word, 65 ≤ c.byte := by
  have letters := of_decide_eq_true head
  constructor
  · rw [← List.length_map, letters]
    rfl
  · intro c member
    have image := List.mem_map_of_mem (f := fun c : CChar => if 65 ≤ c.byte ∧ c.byte ≤ 90 then c.byte + 32 else c.byte) member
    rw [letters] at image
    grind

theorem letter_notSpace {c : CChar} (letter : 65 ≤ c.byte) : isSpace c = false := by
  unfold isSpace
  grind

theorem letter_notDigit {c : CChar} (letter : 65 ≤ c.byte) : isDigit c = false := by
  unfold isDigit
  grind

theorem scanWord_head {blank word rest : CString} (spaces : Blank blank) (head : isHead word = true) :
    scanWord (blank ++ (word ++ rest)) = some (word, rest) := by
  obtain ⟨four, letters⟩ := isHead_letters head
  have skipped : (blank ++ (word ++ rest)).dropWhile isSpace = word ++ rest := by
    apply dropWhile_blank spaces
    intro c first
    cases word with
    | nil => cases four
    | cons d word =>
      cases first
      exact letter_notSpace (letters _ List.mem_cons_self)
  have taken : ((word ++ rest).takeWhile fun c => !isSpace c).take 4 = word := by
    rw [List.takeWhile_append_of_pos fun c member => by rw [letter_notSpace (letters c member)]; rfl, ← four, List.take_left']
    rfl
  simp only [scanWord, skipped, taken]
  rw [if_neg (List.ne_nil_of_length_pos (by omega)), List.drop_left']
  rfl

theorem scanWord_reads {s word rest : CString} (scanned : scanWord s = some (word, rest)) :
    ∃ blank, Blank blank ∧ s = blank ++ (word ++ rest) := by
  obtain ⟨blank, spaces, front⟩ := blank_split s
  simp only [scanWord] at scanned
  split at scanned
  · cases scanned
  · cases scanned
    refine ⟨blank, spaces, ?_⟩
    have shorter : (((s.dropWhile isSpace).takeWhile fun c => !isSpace c).take 4) <+: s.dropWhile isSpace :=
      (List.take_prefix _ _).trans (List.takeWhile_prefix _)
    exact front.trans (congrArg _ (List.prefix_iff_eq_append.mp shorter).symm)

/-- A word HEAD is not read as a number. -/
theorem scanLong_head {blank word rest : CString} (spaces : Blank blank) (head : isHead word = true) :
    scanLong (blank ++ (word ++ rest)) = none := by
  obtain ⟨four, letters⟩ := isHead_letters head
  cases word with
  | nil => cases four
  | cons c word =>
    have letter := letters c List.mem_cons_self
    have skipped : (blank ++ (c :: word ++ rest)).dropWhile isSpace = c :: (word ++ rest) := by
      apply dropWhile_blank spaces
      intro d first
      cases first
      exact letter_notSpace letter
    have signed : scanSign (c :: (word ++ rest)) = (false, c :: (word ++ rest)) := by
      simp only [scanSign]
      rw [if_neg (by grind), if_neg (by grind)]
    simp only [scanLong, skipped, signed, List.takeWhile_cons, letter_notDigit letter]
    simp

/-- Where a number is read, the word there is not HEAD. -/
theorem notHead_of_scanLong {s word rest : CString} {found : Int × CString} (number : scanLong s = some found)
    (scanned : scanWord s = some (word, rest)) : isHead word = false := by
  by_contra head
  obtain ⟨blank, spaces, rfl⟩ := scanWord_reads scanned
  rw [scanLong_head spaces (by simpa using head)] at number
  cases number

/-! ## The schemes read the grammar -/

theorem scanColon_colon (rest : CString) : scanColon (colonChar :: rest) = some rest := rfl

theorem scanColon_eq_some {s rest : CString} : scanColon s = some rest ↔ s = colonChar :: rest := by
  cases s with
  | nil => simp [scanColon]
  | cons c s =>
    simp only [scanColon]
    by_cases same : c.byte = 58
    · rw [if_pos same, eq_of_byte (show c.byte = colonChar.byte from same)]
      simp
    · rw [if_neg same]
      constructor
      · intro wrong
        cases wrong
      · intro equal
        cases equal
        exact absurd rfl same

theorem atEnd_eq_some {A : Type} {result found : A} {rest : CString} :
    atEnd result rest = some found ↔ rest = [] ∧ result = found := by
  unfold atEnd
  split
  · simp [*]
  · simp [*]

theorem HeadWord.scan {text : CString} (head : HeadWord text) (rest : CString) :
    ∃ word, isHead word = true ∧ scanWord (text ++ rest) = some (word, rest) ∧ scanLong (text ++ rest) = none := by
  obtain ⟨spaces, letters⟩ := head
  rw [List.append_assoc]
  exact ⟨_, letters, scanWord_head spaces letters, scanLong_head spaces letters⟩

theorem headWord_of_scan {s word rest : CString} (scanned : scanWord s = some (word, rest)) (head : isHead word = true) :
    ∃ text, HeadWord text ∧ s = text ++ rest := by
  obtain ⟨blank, spaces, rfl⟩ := scanWord_reads scanned
  exact ⟨blank ++ word, .mk spaces head, (List.append_assoc ..).symm⟩

theorem scanWords_reads {str first second : CString} (scanned : scanWords str = some (first, second))
    (heads : isHead first = true ∧ isHead second = true) : RevisionArg str (-1) (-1) := by
  simp only [scanWords, Option.bind_eq_bind, Option.bind_eq_some_iff] at scanned
  obtain ⟨⟨word, rest⟩, wordScanned, after, colonScanned, ⟨word', rest'⟩, wordScanned', ended⟩ := scanned
  obtain ⟨rfl, same⟩ := atEnd_eq_some.mp ended
  cases same
  obtain ⟨text, head, rfl⟩ := headWord_of_scan wordScanned heads.1
  obtain ⟨text', head', rfl⟩ := headWord_of_scan wordScanned' heads.2
  cases (scanColon_eq_some.mp colonScanned : rest = _)
  rw [List.append_nil]
  exact .heads head head'

theorem scanLongWord_reads {str word : CString} {start : Int} (fits : FitsLong str)
    (scanned : scanLongWord str = some (start, word)) (head : isHead word = true) (valid : ¬ start < 0) :
    RevisionArg str start (-1) := by
  simp only [scanLongWord, Option.bind_eq_bind, Option.bind_eq_some_iff] at scanned
  obtain ⟨⟨start', rest⟩, longScanned, after, colonScanned, ⟨word', rest'⟩, wordScanned, ended⟩ := scanned
  obtain ⟨rfl, same⟩ := atEnd_eq_some.mp ended
  cases same
  obtain ⟨text, n, rfl, number, stops, exactly⟩ := scanLong_reads longScanned
  cases exactly (fits text rest n number stops (.inl rfl))
  obtain ⟨text', headText, rfl⟩ := headWord_of_scan wordScanned head
  cases (scanColon_eq_some.mp colonScanned : rest = _)
  rw [List.append_nil]
  exact .fromNumber number headText (Int.not_lt.mp valid)

theorem scanLongs_reads {str : CString} {start stop : Int} (fits : FitsLong str)
    (scanned : scanLongs str = some (start, stop)) (valid : ¬(start < 0 ∨ stop < 0 ∨ stop < start)) :
    RevisionArg str start stop := by
  simp only [scanLongs, Option.bind_eq_bind, Option.bind_eq_some_iff] at scanned
  obtain ⟨⟨start', rest⟩, longScanned, after, colonScanned, ⟨stop', rest'⟩, longScanned', ended⟩ := scanned
  obtain ⟨rfl, same⟩ := atEnd_eq_some.mp ended
  cases same
  obtain ⟨text, n, rfl, number, stops, exactly⟩ := scanLong_reads longScanned
  cases exactly (fits text rest n number stops (.inl rfl))
  obtain ⟨text', m, rfl, number', stops', exactly'⟩ := scanLong_reads longScanned'
  cases (scanColon_eq_some.mp colonScanned : rest = _)
  cases exactly' (fits text' [] m number' stops' (.inr ⟨text, _, number, rfl⟩))
  rw [List.append_nil]
  exact .range number number' (by omega) (by omega)

theorem scanOneLong_reads {str : CString} {stop : Int} (fits : FitsLong str) (scanned : scanOneLong str = some stop)
    (valid : ¬ stop < 1) : RevisionArg str (stop - 1) stop := by
  simp only [scanOneLong, Option.bind_eq_bind, Option.bind_eq_some_iff] at scanned
  obtain ⟨⟨stop', rest⟩, longScanned, ended⟩ := scanned
  obtain ⟨rfl, same⟩ := atEnd_eq_some.mp ended
  cases same
  obtain ⟨text, n, rfl, number, stops, exactly⟩ := scanLong_reads longScanned
  cases exactly (fits text [] n number stops (.inl rfl))
  rw [List.append_nil]
  exact .single number (Int.not_lt.mp valid)

theorem scanOneWord_reads {str word : CString} (scanned : scanOneWord str = some word) (head : isHead word = true) :
    RevisionArg str (-1) (-1) := by
  simp only [scanOneWord, Option.bind_eq_bind, Option.bind_eq_some_iff] at scanned
  obtain ⟨⟨word', rest⟩, wordScanned, ended⟩ := scanned
  obtain ⟨rfl, same⟩ := atEnd_eq_some.mp ended
  cases same
  obtain ⟨text, headText, rfl⟩ := headWord_of_scan wordScanned head
  rw [List.append_nil]
  exact .head headText

/-- What is accepted is a sentence of the grammar. -/
theorem parseRevnum_reads {str : CString} {start stop : Int} (fits : FitsLong str)
    (parsed : parseRevnum str = some (start, stop)) : RevisionArg str start stop := by
  unfold parseRevnum at parsed
  split at parsed
  next words =>
    cases parsed
    cases scanned : scanWords str with
    | none => simp [scanned] at words
    | some found => exact scanWords_reads scanned (by simpa [scanned] using words)
  split at parsed
  next filtered =>
    obtain ⟨scanned, head⟩ := Option.filter_eq_some_iff.mp filtered
    split at parsed
    · cases parsed
    · cases parsed
      exact scanLongWord_reads fits scanned head ‹_›
  split at parsed
  next scanned =>
    split at parsed
    · cases parsed
    · cases parsed
      exact scanLongs_reads fits scanned ‹_›
  split at parsed
  next scanned =>
    split at parsed
    · cases parsed
    · cases parsed
      exact scanOneLong_reads fits scanned ‹_›
  split at parsed
  next word =>
    cases parsed
    cases scanned : scanOneWord str with
    | none => simp [scanned] at word
    | some found => exact scanOneWord_reads scanned (by simpa [scanned] using word)
  · cases parsed

/-! ## Every sentence is accepted -/

theorem noDigit_colon (rest : CString) : NoDigit (colonChar :: rest) := by
  intro c first
  cases first
  rfl

theorem noDigit_nil : NoDigit [] := by
  intro c first
  cases first

/-- A number in front keeps the first scheme from being taken. -/
theorem scanWords_of_number {str : CString} {found : Int × CString} (number : scanLong str = some found) :
    ((scanWords str).any fun words => isHead words.1 && isHead words.2) = false := by
  cases scanned : scanWords str with
  | none => rfl
  | some words =>
    simp only [scanWords, Option.bind_eq_bind, Option.bind_eq_some_iff] at scanned
    obtain ⟨⟨word, rest⟩, wordScanned, after, colonScanned, ⟨word', rest'⟩, wordScanned', ended⟩ := scanned
    obtain ⟨-, rfl⟩ := atEnd_eq_some.mp ended
    simp [notHead_of_scanLong number wordScanned]

theorem parseRevnum_range_accepts {first second : CString} {n m : Int} (fits : FitsLong (first ++ colonChar :: second))
    (number : Number first n) (number' : Number second m) (valid : 0 ≤ n) (ordered : n ≤ m) :
    parseRevnum (first ++ colonChar :: second) = some (n, m) := by
  have scanned := scanLong_number number (noDigit_colon second)
    (fits first _ n number (noDigit_colon second) (.inl rfl))
  have scanned' : scanLong second = some (m, []) := by
    have read := scanLong_number number' noDigit_nil (fits second [] m number' noDigit_nil
      (.inr ⟨first, n, number, by rw [List.append_nil]⟩))
    rwa [List.append_nil] at read
  have longWord : ((scanLongWord (first ++ colonChar :: second)).filter fun range => isHead range.2) = none := by
    simp only [scanLongWord, scanned, scanColon_colon, Option.bind_eq_bind, Option.bind_some]
    cases wordScanned : scanWord second with
    | none => rfl
    | some found =>
      obtain ⟨word, rest⟩ := found
      simp only [Option.bind_some, atEnd]
      split
      · simp [notHead_of_scanLong scanned' wordScanned]
      · rfl
  have longs : scanLongs (first ++ colonChar :: second) = some (n, m) := by
    simp only [scanLongs, scanned, scanColon_colon, Option.bind_eq_bind, Option.bind_some, scanned', atEnd]
    rfl
  unfold parseRevnum
  rw [scanWords_of_number scanned, longWord]
  simp only [longs]
  rw [if_neg Bool.false_ne_true, if_neg (by omega)]

theorem parseRevnum_fromNumber {first second : CString} {n : Int} (fits : FitsLong (first ++ colonChar :: second))
    (number : Number first n) (head : HeadWord second) (valid : 0 ≤ n) :
    parseRevnum (first ++ colonChar :: second) = some (n, -1) := by
  have scanned := scanLong_number number (noDigit_colon second)
    (fits first _ n number (noDigit_colon second) (.inl rfl))
  obtain ⟨word, letters, wordScanned, -⟩ := head.scan []
  rw [List.append_nil] at wordScanned
  have longWord : ((scanLongWord (first ++ colonChar :: second)).filter fun range => isHead range.2) = some (n, word) := by
    simp only [scanLongWord, scanned, scanColon_colon, Option.bind_eq_bind, Option.bind_some, wordScanned, atEnd]
    simp [letters]
  unfold parseRevnum
  rw [scanWords_of_number scanned, longWord]
  simp only
  rw [if_neg Bool.false_ne_true, if_neg (by omega)]

theorem parseRevnum_heads {first second : CString} (head : HeadWord first) (head' : HeadWord second) :
    parseRevnum (first ++ colonChar :: second) = some (-1, -1) := by
  obtain ⟨word, letters, wordScanned, -⟩ := head.scan (colonChar :: second)
  obtain ⟨word', letters', wordScanned', -⟩ := head'.scan []
  rw [List.append_nil] at wordScanned'
  have words : scanWords (first ++ colonChar :: second) = some (word, word') := by
    simp only [scanWords, wordScanned, scanColon_colon, Option.bind_eq_bind, Option.bind_some, wordScanned', atEnd]
    rfl
  unfold parseRevnum
  rw [words]
  simp [letters, letters']

theorem parseRevnum_head {text : CString} (head : HeadWord text) : parseRevnum text = some (-1, -1) := by
  obtain ⟨word, letters, wordScanned, noLong⟩ := head.scan []
  rw [List.append_nil] at wordScanned noLong
  unfold parseRevnum
  simp [scanWords, scanLongWord, scanLongs, scanOneLong, scanOneWord, noLong, wordScanned, scanColon, atEnd, letters]

theorem parseRevnum_single {text : CString} {n : Int} (fits : FitsLong text) (number : Number text n) (valid : 1 ≤ n) :
    parseRevnum text = some (n - 1, n) := by
  have scanned := scanLong_number number noDigit_nil (fits text [] n number noDigit_nil (.inl (List.append_nil _).symm))
  rw [List.append_nil] at scanned
  unfold parseRevnum
  rw [scanWords_of_number scanned]
  simp only [scanLongWord, scanLongs, scanOneLong, scanned, scanColon, atEnd]
  rw [if_neg Bool.false_ne_true]
  simp [show ¬ n < 1 by omega]

/-- The option accepts exactly the sentences of the grammar, with the range they stand for; the range is HEAD
alone, or it starts at a revision and does not end before its start. -/
theorem revision_option_grammar {str : CString} (fits : FitsLong str) (start stop : Int) :
    (parseRevnum str = some (start, stop) ↔ RevisionArg str start stop) ∧
      (parseRevnum str = some (start, stop) →
        (start = -1 ∧ stop = -1) ∨ (0 ≤ start ∧ (stop = -1 ∨ start ≤ stop))) := by
  refine ⟨⟨parseRevnum_reads fits, fun argument => ?_⟩, parseRevnum_range⟩
  cases argument with
  | range first second valid ordered => exact parseRevnum_range_accepts fits first second valid ordered
  | fromNumber first second valid => exact parseRevnum_fromNumber fits first second valid
  | heads first second => exact parseRevnum_heads first second
  | head word => exact parseRevnum_head word
  | single number valid => exact parseRevnum_single fits number valid

theorem revision_option_grammar_fromNumber : RevisionArg (cstr "3:head") 3 (-1) :=
  (revision_option_grammar (fitsLong_short (by decide)) 3 (-1)).1.mp (by decide)

end Rsvndump
