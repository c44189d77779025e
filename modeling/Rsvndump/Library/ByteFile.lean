import Rsvndump.Library.CString

/-! A file that is read and written at one common position. -/

set_option autoImplicit false

namespace Library

structure ByteFile where
  content : Bytes
  position : Nat

namespace ByteFile

def empty : ByteFile := ⟨[], 0⟩

def seek (file : ByteFile) (position : Nat) : ByteFile := { file with position := position }

def seekEnd (file : ByteFile) : ByteFile := file.seek file.content.length

/-- Writes over what is at the position; a gap behind the end is filled with zeros. -/
def write (file : ByteFile) (data : Bytes) : ByteFile where
  content := file.content.take file.position ++ List.replicate (file.position - file.content.length) 0 ++ data ++
    file.content.drop (file.position + data.length)
  position := file.position + data.length

/-- Reads at most `count` bytes. -/
def read (file : ByteFile) (count : Nat) : Bytes × ByteFile :=
  let data := (file.content.drop file.position).take count
  (data, file.seek (file.position + data.length))

/-- The bytes from `offset` on are `data`. -/
def Holds (file : ByteFile) (offset : Nat) (data : Bytes) : Prop :=
  ∃ front back, file.content = front ++ data ++ back ∧ front.length = offset

theorem write_at_end (file : ByteFile) (data : Bytes) : (file.seekEnd.write data).content = file.content ++ data := by
  simp [seekEnd, seek, write]

theorem Holds.append {file file' : ByteFile} {offset : Nat} {data more : Bytes} (holds : file.Holds offset data)
    (same : file'.content = file.content ++ more) : file'.Holds offset data := by
  obtain ⟨front, back, content, start⟩ := holds
  exact ⟨front, back ++ more, by rw [same, content, List.append_assoc], start⟩

theorem holds_appended {file file' : ByteFile} {data : Bytes} (same : file'.content = file.content ++ data) :
    file'.Holds file.content.length data :=
  ⟨file.content, [], by rw [same, List.append_nil], rfl⟩

/-- What is held is read. -/
theorem Holds.read {file : ByteFile} {offset : Nat} {data : Bytes} (holds : file.Holds offset data) :
    ((file.seek offset).read data.length).1 = data := by
  obtain ⟨front, back, content, rfl⟩ := holds
  simp [ByteFile.read, seek, content]

@[simp] theorem read_content (file : ByteFile) (count : Nat) : (file.read count).2.content = file.content := rfl

@[simp] theorem seek_content (file : ByteFile) (position : Nat) : (file.seek position).content = file.content := rfl

end ByteFile

end Library
