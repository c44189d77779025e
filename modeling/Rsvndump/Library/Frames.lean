import Rsvndump.Library.CString

/-! Streams of records with header lines and sections.

A record is a block of lines `name: value`, a blank line, and one section for
each of the given length headers that is present. Blank lines may follow.
-/

set_option autoImplicit false

namespace Library

def lineEnd : UInt8 := 10
def colon : UInt8 := 58
def space : UInt8 := 32

/-! ## Numbers -/

def decimal (n : Nat) : Bytes := (Nat.toDigits 10 n).map fun c => UInt8.ofNat c.toNat

def isDecimalDigit (b : UInt8) : Bool := decide (48 ≤ b) && decide (b ≤ 57)

/-- A number without a sign. -/
def parseDecimal (s : Bytes) : Option Nat :=
  if s ≠ [] ∧ s.all isDecimalDigit then some (s.foldl (fun n b => 10 * n + (b.toNat - 48)) 0) else none

theorem digit_bounds {n : Nat} {c : Char} (member : c ∈ Nat.toDigits 10 n) : 48 ≤ c.toNat ∧ c.toNat ≤ 57 := by
  have digit := Nat.isDigit_of_mem_toDigits (by decide) (by decide) member
  simpa [Char.isDigit, UInt32.le_iff_toNat_le] using digit

theorem digit_toNat {n : Nat} {c : Char} (member : c ∈ Nat.toDigits 10 n) : (UInt8.ofNat c.toNat).toNat = c.toNat := by
  have := digit_bounds member
  rw [UInt8.toNat_ofNat', Nat.mod_eq_of_lt (by omega)]

theorem all_digits_decimal (n : Nat) : (decimal n).all isDecimalDigit = true := by
  rw [List.all_eq_true]
  intro b member
  obtain ⟨c, digit, rfl⟩ := List.mem_map.mp member
  have bounds := digit_bounds digit
  simp [isDecimalDigit, UInt8.le_iff_toNat_le, digit_toNat digit, bounds]

theorem decimal_ne_nil (n : Nat) : decimal n ≠ [] := by
  simp [decimal, Nat.toDigits_ne_nil]

@[simp] theorem parseDecimal_decimal (n : Nat) : parseDecimal (decimal n) = some n := by
  have value (digits : List Char) (valid : ∀ c ∈ digits, c ∈ Nat.toDigits 10 n) (start : Nat) :
      (digits.map fun c => UInt8.ofNat c.toNat).foldl (fun n b => 10 * n + (b.toNat - 48)) start =
        Nat.ofDigitChars 10 digits start := by
    induction digits generalizing start with
    | nil => simp
    | cons c digits ih =>
      rw [List.forall_mem_cons] at valid
      rw [List.map_cons, List.foldl_cons, ih valid.2, Nat.ofDigitChars_cons, digit_toNat valid.1]
      rfl
  rw [parseDecimal, if_pos ⟨decimal_ne_nil n, all_digits_decimal n⟩]
  exact congrArg some ((value _ (fun _ member => member) 0).trans Nat.ofDigitChars_ten_toDigits)

theorem lineEnd_notMem_decimal (n : Nat) : lineEnd ∉ decimal n := by
  intro member
  have := List.all_eq_true.mp (all_digits_decimal n) _ member
  revert this
  decide

/-! ## Lines -/

/-- A name and a value. -/
abbrev Header := Bytes × Bytes

def headerLine (header : Header) : Bytes := header.1 ++ colon :: space :: header.2 ++ [lineEnd]

/-- The name ends at the first colon, and the line at the end of the value. -/
structure Header.Clean (header : Header) : Prop where
  colon : colon ∉ header.1
  name : lineEnd ∉ header.1
  value : lineEnd ∉ header.2

def readLine (s : Bytes) : Option (Bytes × Bytes) :=
  let line := s.takeWhile (· ≠ lineEnd)
  match s.drop line.length with
  | _ :: rest => some (line, rest)
  | [] => none

def readHeader (line : Bytes) : Option Header :=
  let name := line.takeWhile (· ≠ colon)
  match line.drop name.length with
  | _ :: b :: value => if b = space then some (name, value) else none
  | _ => none

/-- Reads headers up to a blank line, of which there are fewer than bytes. -/
def readHeaders : Nat → Bytes → Option (List Header × Bytes)
  | 0, _ => none
  | fuel + 1, s => do
      let (line, rest) ← readLine s
      if line = [] then return ([], rest)
      let header ← readHeader line
      let (headers, rest) ← readHeaders fuel rest
      return (header :: headers, rest)

theorem takeWhile_append_stop {stop : UInt8} {front : Bytes} (clear : stop ∉ front) (rest : Bytes) :
    (front ++ stop :: rest).takeWhile (· ≠ stop) = front := by
  rw [List.takeWhile_append_of_pos, List.takeWhile_cons_of_neg (by simp), List.append_nil]
  intro b member
  have other : b ≠ stop := fun same => clear (same ▸ member)
  simpa using other

theorem readLine_append {line : Bytes} (clear : lineEnd ∉ line) (rest : Bytes) :
    readLine (line ++ lineEnd :: rest) = some (line, rest) := by
  simp only [readLine, takeWhile_append_stop clear, List.drop_left]

theorem readHeader_line {header : Header} (clean : header.Clean) :
    readHeader (header.1 ++ colon :: space :: header.2) = some header := by
  simp only [readHeader, takeWhile_append_stop clean.colon, List.drop_left, if_true]

theorem readHeaders_lines {headers : List Header} (clean : ∀ header ∈ headers, header.Clean) {fuel : Nat}
    (enough : headers.length < fuel) (rest : Bytes) :
    readHeaders fuel (headers.flatMap headerLine ++ lineEnd :: rest) = some (headers, rest) := by
  induction headers generalizing fuel with
  | nil =>
    obtain ⟨fuel, rfl⟩ := Nat.exists_eq_succ_of_ne_zero (Nat.ne_zero_of_lt enough)
    have blank : readLine (lineEnd :: rest) = some ([], rest) := readLine_append List.not_mem_nil rest
    simp [readHeaders, blank]
  | cons header headers ih =>
    obtain ⟨fuel, rfl⟩ := Nat.exists_eq_succ_of_ne_zero (Nat.ne_zero_of_lt enough)
    rw [List.forall_mem_cons] at clean
    have clear : lineEnd ∉ header.1 ++ colon :: space :: header.2 := by
      simp only [List.mem_append, List.mem_cons, clean.1.name, clean.1.value, or_false, false_or, not_or]
      exact ⟨by decide, by decide⟩
    have split : (header :: headers).flatMap headerLine ++ lineEnd :: rest =
        (header.1 ++ colon :: space :: header.2) ++ lineEnd :: (headers.flatMap headerLine ++ lineEnd :: rest) := by
      simp [headerLine]
    have step := ih clean.2 (Nat.lt_of_succ_lt_succ enough)
    rw [split, readHeaders, readLine_append clear]
    simp [readHeader_line clean.1, step]

/-! ## Sections -/

structure Frame where
  headers : List Header
  sections : List (Option Bytes)
  deriving DecidableEq

/-- Each section is as long as its header says, and is there only with its header. -/
def Sized (headers : List Header) : List Bytes → List (Option Bytes) → Prop
  | [], sections => sections = []
  | name :: names, sections =>
      match sections with
      | [] => False
      | part :: sections =>
          (headers.lookup name).map parseDecimal = part.map (fun bytes => some bytes.length) ∧ Sized headers names sections

def readSections (headers : List Header) : List Bytes → Bytes → Option (List (Option Bytes) × Bytes)
  | [], s => some ([], s)
  | name :: names, s =>
      match headers.lookup name with
      | none => do
          let (sections, rest) ← readSections headers names s
          return (none :: sections, rest)
      | some value => do
          let n ← parseDecimal value
          if s.length < n then none
          else
            let (sections, rest) ← readSections headers names (s.drop n)
            return (some (s.take n) :: sections, rest)

/-- The bytes of the sections that are there. -/
def sectionBytes (sections : List (Option Bytes)) : Bytes := sections.flatMap fun part => part.getD []

theorem readSections_bytes {headers : List Header} {names : List Bytes} {sections : List (Option Bytes)}
    (sized : Sized headers names sections) (rest : Bytes) :
    readSections headers names (sectionBytes sections ++ rest) = some (sections, rest) := by
  induction names generalizing sections with
  | nil =>
    cases sized
    rfl
  | cons name names ih =>
    cases sections with
    | nil => exact sized.elim
    | cons part sections =>
      obtain ⟨same, sized⟩ := sized
      have more := ih sized
      unfold sectionBytes at more
      rw [readSections]
      cases found : headers.lookup name with
      | none =>
        rw [found] at same
        cases part with
        | some bytes => cases same
        | none => simp [sectionBytes, more]
      | some value =>
        rw [found] at same
        cases part with
        | none => cases same
        | some bytes =>
          have parsed : parseDecimal value = some bytes.length := Option.some.inj same
          simp [sectionBytes, parsed, more]

theorem readSections_sized {headers : List Header} {names : List Bytes} {sections : List (Option Bytes)}
    {s rest : Bytes} (read : readSections headers names s = some (sections, rest)) : Sized headers names sections := by
  induction names generalizing s sections with
  | nil =>
    cases read
    rfl
  | cons name names ih =>
    rw [readSections] at read
    split at read
    · next absent =>
      obtain ⟨⟨more, rest'⟩, later, done⟩ := Option.bind_eq_some_iff.mp read
      cases done
      exact ⟨by simp [absent], ih later⟩
    · next value found =>
      obtain ⟨n, parsed, read⟩ := Option.bind_eq_some_iff.mp read
      split at read
      · cases read
      · next enough =>
        obtain ⟨⟨more, rest'⟩, later, done⟩ := Option.bind_eq_some_iff.mp read
        cases done
        refine ⟨?_, ih later⟩
        simp only [found, Option.map_some, parsed, List.length_take]
        rw [Nat.min_eq_left (by omega)]

/-! ## Streams -/

/-- A record and `blanks` blank lines. -/
def renderFrame (frame : Frame) (blanks : Nat) : Bytes :=
  frame.headers.flatMap headerLine ++ lineEnd :: (sectionBytes frame.sections ++ List.replicate blanks lineEnd)

variable (names : List Bytes)

def readFrame (s : Bytes) : Option (Frame × Bytes) := do
  let (headers, rest) ← readHeaders (s.length + 1) s
  let (sections, rest) ← readSections headers names rest
  return (⟨headers, sections⟩, rest.dropWhile (· = lineEnd))

/-- Every record has bytes, so as many rounds as bytes are enough. -/
def readFrames : Nat → Bytes → Option (List Frame)
  | 0, _ => none
  | fuel + 1, s =>
      if s = [] then some []
      else do
        let (frame, rest) ← readFrame names s
        let frames ← readFrames fuel rest
        return frame :: frames

def readStream (s : Bytes) : Option (List Frame) := readFrames names (s.length + 1) s

variable {names}

/-- A record that its printed form determines. -/
structure Frame.Regular (names : List Bytes) (frame : Frame) : Prop where
  started : frame.headers ≠ []
  clean : ∀ header ∈ frame.headers, header.Clean
  sized : Sized frame.headers names frame.sections

theorem length_lt_render (frame : Frame) (blanks : Nat) (rest : Bytes) :
    frame.headers.length < (renderFrame frame blanks ++ rest).length := by
  have lines : frame.headers.length ≤ (frame.headers.flatMap headerLine).length := by
    induction frame.headers with
    | nil => simp
    | cons header headers ih =>
      simp only [List.flatMap_cons, List.length_append, List.length_cons, headerLine] at ih ⊢
      omega
  simp only [renderFrame, List.length_append, List.length_cons]
  omega

/-- No record starts with a blank line. -/
theorem render_head {frame : Frame} (regular : frame.Regular names) (blanks : Nat) (rest : Bytes) :
    ∃ b s, renderFrame frame blanks ++ rest = b :: s ∧ b ≠ lineEnd := by
  obtain ⟨header, headers, same⟩ := List.exists_cons_of_ne_nil regular.started
  have clean := regular.clean header (by simp [same])
  obtain ⟨⟨name, value⟩, blank⟩ : ∃ first, first = header := ⟨header, rfl⟩
  subst blank
  cases name with
  | nil => exact ⟨colon, _, by simp [renderFrame, same, headerLine]; rfl, by decide⟩
  | cons b name =>
    refine ⟨b, _, by simp [renderFrame, same, headerLine]; rfl, fun wrong => ?_⟩
    exact clean.name (wrong ▸ List.mem_cons_self)

theorem dropWhile_blanks (blanks : Nat) {rest : Bytes} (started : rest.head? ≠ some lineEnd) :
    (List.replicate blanks lineEnd ++ rest).dropWhile (· = lineEnd) = rest := by
  induction blanks with
  | zero =>
    cases rest with
    | nil => rfl
    | cons b rest => exact List.dropWhile_cons_of_neg (by simpa using started)
  | succ blanks ih => simpa [List.replicate_succ] using ih

theorem readFrame_render {frame : Frame} (regular : frame.Regular names) (blanks : Nat) {rest : Bytes}
    (started : rest.head? ≠ some lineEnd) : readFrame names (renderFrame frame blanks ++ rest) = some (frame, rest) := by
  have bytes : renderFrame frame blanks ++ rest = frame.headers.flatMap headerLine ++
      lineEnd :: (sectionBytes frame.sections ++ (List.replicate blanks lineEnd ++ rest)) := by
    simp [renderFrame]
  have headers := readHeaders_lines regular.clean
    (Nat.lt_succ_of_lt (length_lt_render frame blanks rest))
    (sectionBytes frame.sections ++ (List.replicate blanks lineEnd ++ rest))
  rw [← bytes] at headers
  unfold readFrame
  rw [headers]
  simp [readSections_bytes regular.sized, dropWhile_blanks blanks started]

theorem readFrames_render {frames : List (Frame × Nat)} (regular : ∀ item ∈ frames, item.1.Regular names) {fuel : Nat}
    (enough : (frames.flatMap fun item => renderFrame item.1 item.2).length < fuel) :
    readFrames names fuel (frames.flatMap fun item => renderFrame item.1 item.2) = some (frames.map Prod.fst) := by
  induction frames generalizing fuel with
  | nil =>
    obtain ⟨fuel, rfl⟩ := Nat.exists_eq_succ_of_ne_zero (Nat.ne_zero_of_lt enough)
    rfl
  | cons item frames ih =>
    obtain ⟨fuel, rfl⟩ := Nat.exists_eq_succ_of_ne_zero (Nat.ne_zero_of_lt enough)
    rw [List.forall_mem_cons] at regular
    rw [List.flatMap_cons] at enough ⊢
    have longer := length_lt_render item.1 item.2 []
    rw [List.append_nil] at longer
    rw [List.length_append] at enough
    -- the blank lines behind a record end where the next one starts
    have next : (frames.flatMap fun item => renderFrame item.1 item.2).head? ≠ some lineEnd := by
      cases frames with
      | nil => simp
      | cons second frames =>
        obtain ⟨b, s, start, other⟩ := render_head (regular.2 second (by simp)) second.2
          (frames.flatMap fun item => renderFrame item.1 item.2)
        rw [List.flatMap_cons, start]
        simpa using other
    obtain ⟨b, s, start, -⟩ := render_head regular.1 item.2 (frames.flatMap fun item => renderFrame item.1 item.2)
    have more := @ih regular.2 fuel (by omega)
    rw [readFrames, if_neg (by simp [start]), readFrame_render regular.1 item.2 next]
    simp [more]

/-- A reader recovers the records of a stream. -/
theorem readStream_render {frames : List (Frame × Nat)} (regular : ∀ item ∈ frames, item.1.Regular names) :
    readStream names (frames.flatMap fun item => renderFrame item.1 item.2) = some (frames.map Prod.fst) :=
  readFrames_render regular (Nat.lt_succ_self _)

theorem readFrames_sized {fuel : Nat} {s : Bytes} {frames : List Frame} (read : readFrames names fuel s = some frames) :
    ∀ frame ∈ frames, Sized frame.headers names frame.sections := by
  induction fuel generalizing s frames with
  | zero => cases read
  | succ fuel ih =>
    rw [readFrames] at read
    split at read
    · cases read
      simp
    · obtain ⟨⟨first, rest⟩, one, read⟩ := Option.bind_eq_some_iff.mp read
      obtain ⟨others, more, done⟩ := Option.bind_eq_some_iff.mp read
      cases done
      obtain ⟨⟨headers, tail⟩, -, one⟩ := Option.bind_eq_some_iff.mp one
      obtain ⟨⟨sections, tail'⟩, parts, done⟩ := Option.bind_eq_some_iff.mp one
      cases done
      rw [List.forall_mem_cons]
      exact ⟨readSections_sized parts, ih more⟩

/-- Whatever is read is as long as it says. -/
theorem readStream_sized {s : Bytes} {frames : List Frame} (read : readStream names s = some frames) :
    ∀ frame ∈ frames, Sized frame.headers names frame.sections :=
  readFrames_sized read

end Library
