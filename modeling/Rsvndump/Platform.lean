import Rsvndump.Library.CString

/-! What the program takes from its surroundings: the optional compressor, the
checksum, the delta generator and the memory behind a string's terminator. -/

set_option autoImplicit false

namespace Rsvndump

open Library

/-- An MD5 digest (`APR_MD5_DIGESTSIZE` bytes). -/
abbrev Digest := Bytes

def zeroDigest : Digest := List.replicate 16 0

/-- The compressor counts its input in an `int`; the law the stores rely on holds as far
as that reaches. `svndiff source target` is the encoded delta of `svn_txdelta`. `stray`
is what a read at or past index `length + 1` of a heap string returns; nothing is known
of it. -/
structure Platform where
  compress : Bytes → Bytes
  uncompress : Bytes → Option Bytes
  uncompress_compress : ∀ data, data.length < 2147483648 → uncompress (compress data) = some data
  md5 : Bytes → Digest
  svndiff : Bytes → Bytes → Bytes
  stray : CString → Nat → UInt8

/-- A build without USE_SNAPPY on zeroed memory; checksums are the texts themselves. -/
def Platform.plain : Platform where
  compress := id
  uncompress := some
  uncompress_compress _ _ := rfl
  md5 := id
  svndiff _ target := target
  stray _ _ := 0

/-- `s[i]`, where index `length` is the terminator. -/
def Platform.charAt (sys : Platform) (s : CString) (i : Nat) : UInt8 :=
  match s[i]? with
  | some c => c.byte
  | none => if i = s.length then 0 else sys.stray s i

end Rsvndump
