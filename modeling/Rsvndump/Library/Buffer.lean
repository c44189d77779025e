import Rsvndump.Library.CString

/-! Memory of a fixed size, read and written through pointers into it.

An access that is not inside the memory has no result.
-/

set_option autoImplicit false

namespace Library

/-- The content of `size` allocated bytes. -/
structure Buffer (size : Nat) where
  bytes : Bytes
  sized : bytes.length = size

namespace Buffer

/-- As much memory as there is data, and the data in it. -/
def ofBytes (data : Bytes) : Buffer data.length := ⟨data, rfl⟩

variable {size : Nat}

def load (buf : Buffer size) (offset : Int) (count : Nat) : Option Bytes :=
  if 0 ≤ offset ∧ offset + count ≤ size then some ((buf.bytes.drop offset.toNat).take count) else none

def store (buf : Buffer size) (offset : Int) (data : Bytes) : Option (Buffer size) :=
  if inside : 0 ≤ offset ∧ offset + data.length ≤ size then
    some {
      bytes := buf.bytes.take offset.toNat ++ data ++ buf.bytes.drop (offset.toNat + data.length)
      sized := by
        have sized := buf.sized
        simp only [List.length_append, List.length_take, List.length_drop]
        omega }
  else none

/-- The string at a pointer, of at most `count` characters; nothing behind its terminator is looked at. -/
def loadString (buf : Buffer size) (offset : Int) (count : Nat) : Option CString :=
  let front := (buf.bytes.drop offset.toNat).take count
  if 0 ≤ offset ∧ (front.length = count ∨ 0 ∈ front) then some (CString.ofBytes front) else none

variable {buf : Buffer size} {front data : Bytes}

theorem length_le_size (starts : front <+: buf.bytes) : front.length ≤ size :=
  Nat.le_trans starts.length_le (Nat.le_of_eq buf.sized)

theorem bytes_at {offset : Int} (starts : front ++ data <+: buf.bytes) (place : offset = front.length) :
    (buf.bytes.drop offset.toNat).take data.length = data := by
  obtain ⟨rest, whole⟩ := starts
  rw [place, Int.toNat_natCast, ← whole, List.append_assoc, List.drop_left, List.take_left]

theorem load_front (offset : Int) (starts : front ++ data <+: buf.bytes) (place : offset = front.length) :
    buf.load offset data.length = some data := by
  have inside := length_le_size starts
  rw [List.length_append] at inside
  rw [load, if_pos (by omega), bytes_at starts place]

theorem loadString_front {s : CString} (offset : Int) (starts : front ++ CString.bytes s <+: buf.bytes)
    (place : offset = front.length) : buf.loadString offset s.length = some s := by
  have found := bytes_at starts place
  rw [CString.length_bytes] at found
  simp only [loadString, found]
  rw [if_pos ⟨by omega, .inl (CString.length_bytes s)⟩, CString.ofBytes_bytes]

/-- Data that fits is written behind what is already there. -/
theorem store_front (offset : Int) (data : Bytes) (starts : front <+: buf.bytes) (place : offset = front.length)
    (room : front.length + data.length ≤ size) :
    ∃ buf', buf.store offset data = some buf' ∧ front ++ data <+: buf'.bytes := by
  refine ⟨_, by rw [store, dif_pos (by omega)], buf.bytes.drop (offset.toNat + data.length), ?_⟩
  have taken : buf.bytes.take front.length = front := List.prefix_iff_eq_take.mp starts |>.symm
  change front ++ data ++ _ = buf.bytes.take offset.toNat ++ data ++ _
  rw [place, Int.toNat_natCast, taken]

end Buffer

end Library
