import Rsvndump.Library.Frames

/-! Blocks of properties.

Names and values are printed behind their lengths, so they may contain anything.
A reader takes as many bytes as the lengths say, up to the line that ends a block.
-/

set_option autoImplicit false

namespace Library

inductive PropEntry where
  | set (name value : Bytes)
  | delete (name : Bytes)
  deriving DecidableEq

def PropEntry.name : PropEntry → Bytes
  | .set name _ => name
  | .delete name => name

/-- The letters in front of a name, of a value and of a deleted name. -/
def keyTag : UInt8 := 75
def valueTag : UInt8 := 86
def deleteTag : UInt8 := 68

def renderSized (tag : UInt8) (data : Bytes) : Bytes := tag :: space :: decimal data.length ++ lineEnd :: data ++ [lineEnd]

def PropEntry.render : PropEntry → Bytes
  | .set name value => renderSized keyTag name ++ renderSized valueTag value
  | .delete name => renderSized deleteTag name

/-- Reads a length, as many bytes and the end of the line. -/
def readSized (tag : UInt8) (s : Bytes) : Option (Bytes × Bytes) := do
  let (line, rest) ← readLine s
  match line with
  | first :: second :: digits =>
      if first = tag ∧ second = space then
        let n ← parseDecimal digits
        match rest.drop n with
        | [] => none
        | b :: after => if b = lineEnd then some (rest.take n, after) else none
      else none
  | _ => none

def readEntry (s : Bytes) : Option (PropEntry × Bytes) :=
  if s.head? = some deleteTag then (readSized deleteTag s).map fun found => (.delete found.1, found.2)
  else do
    let (name, rest) ← readSized keyTag s
    let (value, rest) ← readSized valueTag rest
    return (.set name value, rest)

/-- Reads entries up to the line `stop`, of which there are fewer than bytes. -/
def readBlock (stop : Bytes) : Nat → Bytes → Option (List PropEntry × Bytes)
  | 0, _ => none
  | fuel + 1, s => do
      let (line, rest) ← readLine s
      if line = stop then return ([], rest)
      let (entry, rest) ← readEntry s
      let (entries, rest) ← readBlock stop fuel rest
      return (entry :: entries, rest)

/-- The length stands on a line of its own. -/
theorem readLine_sized {tag : UInt8} (plain : tag ≠ lineEnd) (data rest : Bytes) :
    readLine (renderSized tag data ++ rest) = some (tag :: space :: decimal data.length, data ++ lineEnd :: rest) := by
  have clear : lineEnd ∉ tag :: space :: decimal data.length := by
    intro member
    rcases List.mem_cons.mp member with same | member
    · exact plain same.symm
    rcases List.mem_cons.mp member with same | member
    · exact absurd same (by decide)
    · exact lineEnd_notMem_decimal _ member
  rw [← readLine_append clear]
  simp [renderSized]

theorem readSized_render {tag : UInt8} (plain : tag ≠ lineEnd) (data rest : Bytes) :
    readSized tag (renderSized tag data ++ rest) = some (data, rest) := by
  simp only [readSized, readLine_sized plain]
  simp

theorem readEntry_render (entry : PropEntry) (rest : Bytes) : readEntry (entry.render ++ rest) = some (entry, rest) := by
  cases entry with
  | set name value =>
    have key : (renderSized keyTag name ++ (renderSized valueTag value ++ rest)).head? ≠ some deleteTag := by
      simp [renderSized, keyTag, deleteTag]
    rw [PropEntry.render, List.append_assoc, readEntry, if_neg key, readSized_render (by decide)]
    simp [readSized_render (show valueTag ≠ lineEnd by decide)]
  | delete name =>
    rw [PropEntry.render, readEntry, if_pos (by simp [renderSized]), readSized_render (by decide)]
    rfl

theorem readLine_render (entry : PropEntry) (rest : Bytes) : ∃ line after, readLine (entry.render ++ rest) = some (line, after) ∧
    (line.head? = some keyTag ∨ line.head? = some deleteTag) := by
  cases entry with
  | set name value =>
    rw [PropEntry.render, List.append_assoc]
    exact ⟨_, _, readLine_sized (by decide) _ _, .inl rfl⟩
  | delete name => exact ⟨_, _, readLine_sized (by decide) _ _, .inr rfl⟩

/-- A block that is read back has the entries it was printed from, whatever follows it. -/
theorem readBlock_render {stop : Bytes} (clear : lineEnd ∉ stop) (apart : stop.head? ≠ some keyTag ∧ stop.head? ≠ some deleteTag)
    {entries : List PropEntry} {fuel : Nat} (enough : entries.length < fuel) (rest : Bytes) :
    readBlock stop fuel (entries.flatMap PropEntry.render ++ (stop ++ lineEnd :: rest)) = some (entries, rest) := by
  induction entries generalizing fuel with
  | nil =>
    cases fuel with
    | zero => exact absurd enough (by simp)
    | succ fuel => simp [readBlock, readLine_append clear]
  | cons entry entries ih =>
    cases fuel with
    | zero => exact absurd enough (by simp)
    | succ fuel =>
      obtain ⟨line, after, read, head⟩ := readLine_render entry (entries.flatMap PropEntry.render ++ (stop ++ lineEnd :: rest))
      have other : line ≠ stop := by
        rintro rfl
        exact head.elim apart.1 apart.2
      rw [List.flatMap_cons, List.append_assoc, readBlock, read]
      simp [other, readEntry_render, ih (Nat.lt_of_succ_lt_succ enough)]

end Library
