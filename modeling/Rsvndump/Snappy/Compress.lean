import Rsvndump.Snappy.Format
import Rsvndump.Snappy.Memory

/-! The compressor of snappy.c, in the build without scatter-gather.

A fragment of the input is searched for matches with a hash table of positions,
and written as literals and copies. Fragments do not refer to each other, and the
table is set to zero for each of them.
-/

set_option autoImplicit false

namespace Rsvndump.Snappy

open Library

variable {size cap : Nat}

def snappyMaxCompressedLength (sourceLen : Nat) : Nat := 32 + sourceLen + sourceLen / 6

/-- The output with the pointer behind what has been written. -/
structure Dest (cap : Nat) where
  mem : Buffer cap
  op : Nat

/-! ## Elements -/

/-- The length bytes of a long literal; an `int` has four. -/
def lengthBytes : Nat → Nat → Bytes
  | 0, _ => []
  | fuel + 1, n => if 0 < n then byteOf (n &&& 0xff) :: lengthBytes fuel (n >>> 8) else []

/-- `emit_literal`. Zero-length literals are disallowed. -/
def emitLiteral (dest : Dest cap) (input : Buffer size) (literal len : Nat) (allowFastPath : Bool) :
    Except SnappyError (Dest cap) := do
  let n := len - 1
  if n < 60 then
    let mem ← store dest.mem dest.op [byteOf (n <<< 2)]
    let op := dest.op + 1
    if allowFastPath ∧ len ≤ 16 then
      -- up to 15 bytes too much are copied
      let mem ← store mem op (← load input literal 8)
      let mem ← store mem (op + 8) (← load input (literal + 8) 8)
      return ⟨mem, op + len⟩
    else
      let mem ← store mem op (← load input literal len)
      return ⟨mem, op + len⟩
  else
    let bytes := lengthBytes 4 n
    check (1 ≤ bytes.length)
    check (bytes.length ≤ 4)
    -- the tag in front of the length bytes is written last
    let mem ← store dest.mem dest.op (byteOf ((59 + bytes.length) <<< 2) :: bytes)
    let op := dest.op + 1 + bytes.length
    let mem ← store mem op (← load input literal len)
    return ⟨mem, op + len⟩

def copyBytes (offset len : Nat) : Bytes :=
  -- one byte of offset, with its upper three bits in the tag
  if len < 12 ∧ offset < 2048 then
    [byteOf (1 ||| (len - 4) <<< 2 ||| (offset >>> 8) <<< 5), byteOf (offset &&& 0xff)]
  else byteOf (2 ||| (len - 1) <<< 2) :: toLittle 2 offset

def emitCopyLessThan64 (dest : Dest cap) (offset len : Nat) : Except SnappyError (Dest cap) := do
  check (len ≤ 64)
  check (4 ≤ len)
  check (offset < 65536)
  let mem ← store dest.mem dest.op (copyBytes offset len)
  return ⟨mem, dest.op + (copyBytes offset len).length⟩

/-- The loop of `emit_copy`, with the length that is left. -/
def emitCopyLoop (offset : Nat) : Nat → Dest cap → Nat → Except SnappyError (Dest cap × Nat)
  | 0, _, _ => .error .rounds
  | fuel + 1, dest, len => do
      -- at least four bytes are left for the last copy
      if 68 ≤ len then
        let dest ← emitCopyLessThan64 dest offset 64
        emitCopyLoop offset fuel dest (len - 64)
      else return (dest, len)

def emitCopy (dest : Dest cap) (offset len : Nat) : Except SnappyError (Dest cap) := do
  let (dest, len) ← emitCopyLoop offset (len + 1) dest len
  if 64 < len then
    let dest ← emitCopyLessThan64 dest offset 60
    emitCopyLessThan64 dest offset (len - 60)
  else emitCopyLessThan64 dest offset len

/-! ## Fragments -/

/-- `(bytes * kmul) >> shift` in 32 bits -/
def hashBytes (bytes shift : Nat) : Nat := (bytes * 0x1e35a7bd % 4294967296) >>> shift

def hash (input : Buffer size) (p shift : Nat) : Except SnappyError Nat := do return hashBytes (← load32 input p) shift

def getU32AtOffset (v offset : Nat) : Nat := v >>> (8 * offset) % 4294967296

/-- The loop of `get_hash_table`; the table is doubled at most six times. -/
def tableSize (inputSize : Nat) : Nat → Nat → Nat
  | 0, htsize => htsize
  | fuel + 1, htsize =>
      if htsize < 16384 ∧ htsize < inputSize then tableSize inputSize fuel (htsize <<< 1) else htsize

/-- The entries of the table that are used, all of them zero. -/
def getHashTable (inputSize : Nat) : Except SnappyError (List Nat) := do
  let htsize := tableSize inputSize 6 256
  check (htsize &&& (htsize - 1) = 0)
  check (htsize ≤ 16384)
  return List.replicate htsize 0

def tableAt (table : List Nat) (i : Nat) : Except SnappyError Nat := orError .outside table[i]?

/-- An entry is a `u16`. -/
def tableSet (table : List Nat) (i value : Nat) : Except SnappyError (List Nat) :=
  if i < table.length then .ok (table.set i (value % 65536)) else .error .outside

/-- Step 1: scans forward for a match of four bytes. There is no result when the input is nearly exhausted. -/
def scanLoop (input : Buffer size) (ipLimit shift : Nat) :
    Nat → Nat → Nat → Nat → List Nat → Except SnappyError (Option (Nat × Nat × List Nat))
  | 0, _, _, _, _ => .error .rounds
  | fuel + 1, skip, nextIp, nextHash, table => do
      let ip := nextIp
      let hval := nextHash
      check (hval = (← hash input ip shift))
      -- the longer no match is found, the more bytes are skipped
      let bytesBetweenHashLookups := skip >>> 5
      let nextIp := ip + bytesBetweenHashLookups
      if ipLimit < nextIp then return none
      let nextHash ← hash input nextIp shift
      let candidate ← tableAt table hval
      check (candidate < ip)
      let table ← tableSet table hval ip
      if (← load32 input ip) ≠ (← load32 input candidate) then
        scanLoop input ipLimit shift fuel (skip + 1) nextIp nextHash table
      else return some (ip, candidate, table)

/-- Step 3: copies as long as the input behind one continues with another match. The result has `next_emit` and, unless
the input is nearly exhausted, what the next literal starts from. -/
def copyLoop (input : Buffer size) (ipLimit shift : Nat) :
    Nat → Nat → Nat → Dest cap → List Nat → Except SnappyError (Dest cap × Nat × Option (Nat × Nat × List Nat))
  | 0, _, _, _, _ => .error .rounds
  | fuel + 1, ip, candidate, dest, table => do
      let base := ip
      let matched := 4 + (← findMatchLength input (candidate + 4) (ip + 4) size)
      let ip := ip + matched
      let offset := base - candidate
      check ((← load input base matched) = (← load input candidate matched))
      let dest ← emitCopy dest offset matched
      let insertTail := ip - 1
      let nextEmit := ip
      if ipLimit ≤ ip then return (dest, nextEmit, none)
      -- the last position of the match and the first one behind it are entered
      let inputBytes ← load64 input insertTail
      let prevHash := hashBytes (getU32AtOffset inputBytes 0) shift
      let table ← tableSet table prevHash (ip - 1)
      let curHash := hashBytes (getU32AtOffset inputBytes 1) shift
      let candidate ← tableAt table curHash
      let candidateBytes ← load32 input candidate
      let table ← tableSet table curHash ip
      if getU32AtOffset inputBytes 1 = candidateBytes then copyLoop input ipLimit shift fuel ip candidate dest table
      else return (dest, nextEmit, some (ip, inputBytes, table))

/-- The main loop of `compress_fragment`, up to `emit_remainder`. -/
def fragmentLoop (input : Buffer size) (ipLimit shift : Nat) :
    Nat → Nat → Nat → Nat → Dest cap → List Nat → Except SnappyError (Dest cap × Nat)
  | 0, _, _, _, _, _ => .error .rounds
  | fuel + 1, ip, nextEmit, nextHash, dest, table => do
      check (nextEmit < ip)
      match ← scanLoop input ipLimit shift size 32 ip nextHash table with
      | none => return (dest, nextEmit)
      | some (ip, candidate, table) =>
          check (nextEmit + 16 ≤ size)
          let dest ← emitLiteral dest input nextEmit (ip - nextEmit) true
          match ← copyLoop input ipLimit shift size ip candidate dest table with
          | (dest, nextEmit, none) => return (dest, nextEmit)
          | (dest, nextEmit, some (ip, inputBytes, table)) =>
              -- the bytes loaded by step 3 reach to the next position
              let nextHash := hashBytes (getU32AtOffset inputBytes 2) shift
              fragmentLoop input ipLimit shift fuel (ip + 1) nextEmit nextHash dest table

def compressFragment (input : Buffer size) (dest : Dest cap) (table : List Nat) : Except SnappyError (Dest cap) := do
  check (size ≤ 32768)
  check (table.length &&& (table.length - 1) = 0)
  let shift := 32 - Nat.log2 table.length
  check (4294967295 >>> shift = table.length - 1)
  let (dest, nextEmit) ←
    if 15 ≤ size then do
      let nextHash ← hash input 1 shift
      fragmentLoop input (size - 15) shift size 1 0 nextHash dest table
    else pure (dest, 0)
  if nextEmit < size then emitLiteral dest input nextEmit (size - nextEmit) false else return dest

/-! ## The whole input -/

/-- `-EIO` -/
def eio : Int := -5

/-- The loop of `compress` over what the reader has left, with the `int` that counts it. The branch that collects a block
from several pieces has no memory for it in this build. -/
def compressLoop : Nat → Bytes → Int → Dest cap → Except SnappyError (Int × Dest cap)
  | 0, _, _, _ => .error .rounds
  | fuel + 1, rest, left, dest => do
      if 0 < left then
        if rest.length = 0 then return (eio, dest)
        let numToRead := (min left 32768).toNat
        if rest.length < numToRead then .error .outside
        let table ← getHashTable numToRead
        let dest ← compressFragment (Buffer.ofBytes (rest.take numToRead)) dest table
        compressLoop fuel (rest.drop numToRead) (left - numToRead) dest
      else return (0, dest)

/-- The result of `snappy_compress`, with the output and the length of what is compressed. -/
def snappyCompress (input : Bytes) (compressed : Buffer cap) : Except SnappyError (Int × Dest cap) := do
  -- `int N = available(reader)`
  let left := (input.length : Int).bmod 4294967296
  let ulength := varintEncode32 (left % 4294967296).toNat
  let mem ← store compressed 0 ulength
  compressLoop (input.length + 1) input left ⟨mem, ulength.length⟩

end Rsvndump.Snappy
