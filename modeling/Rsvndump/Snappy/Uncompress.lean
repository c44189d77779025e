import Rsvndump.Snappy.Compress

/-! The decompressor of snappy.c.

It walks over what the reader has buffered and moves the last bytes of it into five
bytes of its own, so that a tag can be read together with the bytes behind it.
-/

set_option autoImplicit false

namespace Rsvndump.Snappy

open Library

variable {n size : Nat}

/-! ## The reader -/

/-- `struct source`, over one buffer. -/
structure Source where
  ptr : Nat
  left : Nat

/-- The pointer and how much is there. -/
def peek (s : Source) : Nat × Nat := (s.ptr, s.left)

/-- `left` must not wrap. -/
def skip (s : Source) (count : Nat) : Except SnappyError Source :=
  if count ≤ s.left then .ok ⟨s.ptr + count, s.left - count⟩ else .error .outside

/-! ## The writer -/

/-- The base of the output is 0. -/
structure Writer (size : Nat) where
  mem : Buffer size
  op : Nat
  opLimit : Nat

/-- Called before decompression. -/
def writerSetExpectedLength (w : Writer size) (len : Nat) : Writer size := { w with opLimit := w.op + len }

/-- Called after decompression. -/
def writerCheckLength (w : Writer size) : Bool := w.op = w.opLimit

/-- `const int space_left` -/
def spaceLeft (w : Writer size) : Int := ((w.opLimit : Int) - w.op).bmod 4294967296

/-- An `int` that is compared with a `u32`. -/
def toU32 (i : Int) : Nat := (i % 4294967296).toNat

def writerAppendFromSelf (w : Writer size) (offset len : Nat) : Except SnappyError (Writer size × Bool) := do
  let op := w.op
  -- `offset - 1u` catches an offset of 0
  if op ≤ (offset + 4294967295) % 4294967296 then return (w, false)
  if len ≤ 16 ∧ 8 ≤ offset ∧ 16 ≤ spaceLeft w then
    let mem ← copy64 w.mem (op - offset) op
    let mem ← copy64 mem (op - offset + 8) (op + 8)
    return ({ w with mem, op := op + len }, true)
  else if (len + 10) % 4294967296 ≤ toU32 (spaceLeft w) then
    let mem ← incrementalCopyFastPath w.mem (op - offset) op len
    return ({ w with mem, op := op + len }, true)
  else if toU32 (spaceLeft w) < len then return (w, false)
  else
    let mem ← incrementalCopy w.mem (op - offset) op len
    return ({ w with mem, op := op + len }, true)

/-- Appends `len` bytes that `source` gives for a place and a count. -/
def writerAppend (w : Writer size) (source : Nat → Nat → Except SnappyError Bytes) (ip len : Nat) :
    Except SnappyError (Writer size × Bool) := do
  if toU32 (spaceLeft w) < len then return (w, false)
  let mem ← store w.mem w.op (← source ip len)
  return ({ w with mem, op := w.op + len }, true)

def writerTryFastAppend (w : Writer size) (source : Nat → Nat → Except SnappyError Bytes) (ip available len : Nat) :
    Except SnappyError (Writer size × Bool) := do
  if len ≤ 16 ∧ 16 ≤ available ∧ 16 ≤ spaceLeft w then
    let mem ← store w.mem w.op (← source ip 8)
    let mem ← store mem (w.op + 8) (← source (ip + 8) 8)
    return ({ w with mem, op := w.op + len }, true)
  else return (w, false)

/-! ## The decompressor -/

/-- What `ip` and `ip_limit` point into. -/
inductive Area where
  | null
  | reader
  | scratch
  deriving DecidableEq, Repr

/-- `struct snappy_decompressor` -/
structure Decompressor where
  reader : Source
  area : Area
  ip : Nat
  ipLimit : Nat
  peeked : Nat
  eof : Bool
  scratch : Buffer 5

/-- Nothing has been written to `scratch` yet. -/
def initSnappyDecompressor (reader : Source) (scratch : Buffer 5) : Decompressor where
  reader := reader
  area := .null
  ip := 0
  ipLimit := 0
  peeked := 0
  eof := false
  scratch := scratch

def exitSnappyDecompressor (d : Decompressor) : Except SnappyError Decompressor := do
  return { d with reader := ← skip d.reader d.peeked }

section Input

variable (compressed : Buffer n)

/-- What is read through a pointer like `ip`. -/
def loadBuffered (d : Decompressor) (p count : Nat) : Except SnappyError Bytes :=
  match d.area with
  | .null => .error .outside
  | .reader => load compressed p count
  | .scratch => load d.scratch p count

/-- `*(const unsigned char *)(ip)` -/
def byteAt (d : Decompressor) (p : Nat) : Except SnappyError Nat := do return ofLittle (← loadBuffered compressed d p 1)

/-- `get_unaligned_le32(ip)` -/
def wordAtIp (d : Decompressor) (p : Nat) : Except SnappyError Nat := do return ofLittle (← loadBuffered compressed d p 4)

/-- The loop of `read_uncompressed_length`. -/
def lengthLoop : Nat → Source → Nat → Nat → Except SnappyError (Source × Option Nat)
  | 0, _, _, _ => .error .rounds
  | fuel + 1, reader, shift, result => do
      if 32 ≤ shift then return (reader, none)
      let (ip, left) := peek reader
      if left = 0 then return (reader, none)
      let c := ofLittle (← load compressed ip 1)
      let reader ← skip reader 1
      let result := result ||| (c &&& 0x7f) <<< shift % 4294967296
      if c < 128 then return (reader, some result)
      lengthLoop fuel reader (shift + 7) result

/-- The length stored at the start of the compressed data. -/
def readUncompressedLength (d : Decompressor) : Except SnappyError (Decompressor × Option Nat) := do
  check (d.area = .null)
  let (reader, result) ← lengthLoop compressed 6 d.reader 0 0
  return ({ d with reader }, result)

/-- The loop of `refill_tag`, which is left early when the reader has nothing. -/
def stitchLoop (needed : Nat) : Nat → Source → Buffer 5 → Nat → Except SnappyError (Source × Buffer 5 × Nat)
  | 0, _, _, _ => .error .rounds
  | fuel + 1, reader, scratch, nbuf => do
      if nbuf < needed then
        let (src, length) := peek reader
        if length = 0 then return (reader, scratch, nbuf)
        let toAdd := min (needed - nbuf) (length % 4294967296)
        let scratch ← store scratch nbuf (← load compressed src toAdd)
        let reader ← skip reader toAdd
        stitchLoop needed fuel reader scratch (nbuf + toAdd)
      else return (reader, scratch, nbuf)

/-- The part of `refill_tag` behind the tag that is read. -/
def refillWord (d : Decompressor) : Except SnappyError (Decompressor × Bool) := do
  check (d.ip < d.ipLimit)
  let c ← byteAt compressed d d.ip
  let entry ← orError .outside charTable[c]?
  let needed := entry >>> 11 + 1
  check (needed ≤ 5)
  let nbuf := (d.ipLimit - d.ip) % 4294967296
  if nbuf < needed then
    let scratch ← store d.scratch 0 (← loadBuffered compressed d d.ip nbuf)
    let reader ← skip d.reader d.peeked
    let (reader, scratch, nbuf) ← stitchLoop compressed needed 5 reader scratch nbuf
    let d := { d with reader, scratch, peeked := 0 }
    if nbuf < needed then return (d, false)
    check (nbuf = needed)
    return ({ d with area := .scratch, ip := 0, ipLimit := needed }, true)
  else if nbuf < 5 then
    let scratch ← store d.scratch 0 (← loadBuffered compressed d d.ip nbuf)
    let reader ← skip d.reader d.peeked
    return ({ d with reader, scratch, peeked := 0, area := .scratch, ip := 0, ipLimit := nbuf }, true)
  else return (d, true)

def refillTag (d : Decompressor) : Except SnappyError (Decompressor × Bool) := do
  if d.ip = d.ipLimit then
    -- all that was peeked is used up
    let reader ← skip d.reader d.peeked
    let (ip, left) := peek reader
    let d := { d with reader, peeked := left % 4294967296 }
    if left = 0 then return ({ d with eof := true }, false)
    refillWord compressed { d with area := .reader, ip, ipLimit := ip + left }
  else refillWord compressed d

/-- `MAYBE_REFILL`, which returns from the function it is used in when there is no tag to go on with. -/
def maybeRefill (d : Decompressor) (writer : Writer size) (ip : Nat)
    (goOn : Decompressor → Nat → Except SnappyError (Decompressor × Writer size)) :
    Except SnappyError (Decompressor × Writer size) := do
  if d.ipLimit - ip < 5 then
    let (d, more) ← refillTag compressed { d with ip }
    if more then goOn d d.ip else return (d, writer)
  else goOn d ip

/-- The loop that appends what is buffered of a literal and goes on with the rest. -/
def literalLoop : Nat → Decompressor → Writer size → Nat → Nat →
    Except SnappyError (Decompressor × Writer size × Option (Nat × Nat))
  | 0, _, _, _, _ => .error .rounds
  | fuel + 1, d, writer, ip, literalLength => do
      let avail := (d.ipLimit - ip) % 4294967296
      if avail < literalLength then
        let (writer, appended) ← writerAppend writer (loadBuffered compressed d) ip avail
        if ¬appended then return (d, writer, none)
        let reader ← skip d.reader d.peeked
        let (ip, left) := peek reader
        let peeked := left % 4294967296
        let d := { d with reader, peeked }
        -- premature end of input
        if peeked = 0 then return (d, writer, none)
        literalLoop fuel { d with area := .reader, ipLimit := ip + peeked } writer ip (literalLength - avail)
      else return (d, writer, some (ip, literalLength))

/-- Appends a literal whose length is known. -/
def appendLiteral (d : Decompressor) (writer : Writer size) (ip literalLength : Nat) :
    Except SnappyError (Decompressor × Writer size × Option Nat) := do
  match ← literalLoop compressed 4 d writer ip literalLength with
  | (d, writer, none) => return (d, writer, none)
  | (d, writer, some (ip, literalLength)) =>
      let (writer, appended) ← writerAppend writer (loadBuffered compressed d) ip literalLength
      return (d, writer, if appended then some (ip + literalLength) else none)

/-- A literal behind its tag. -/
def decompressLiteral (d : Decompressor) (writer : Writer size) (c ip : Nat) :
    Except SnappyError (Decompressor × Writer size × Option Nat) := do
  let literalLength := c >>> 2 + 1
  let (writer, fast) ← writerTryFastAppend writer (loadBuffered compressed d) ip ((d.ipLimit - ip) % 4294967296) literalLength
  if fast then
    check (literalLength < 61)
    return (d, writer, some (ip + literalLength))
  if 61 ≤ literalLength then
    -- a long literal
    let literalLl := literalLength - 60
    let mask ← orError .outside wordmask[literalLl]?
    let literalLength := ((← wordAtIp compressed d ip) &&& mask) + 1
    appendLiteral compressed d writer (ip + literalLl) (literalLength % 4294967296)
  else appendLiteral compressed d writer ip literalLength

/-- A copy behind its tag. -/
def decompressCopy (d : Decompressor) (writer : Writer size) (c ip : Nat) :
    Except SnappyError (Decompressor × Writer size × Option Nat) := do
  let entry ← orError .outside charTable[c]?
  let mask ← orError .outside wordmask[entry >>> 11]?
  let trailer := (← wordAtIp compressed d ip) &&& mask
  let length := entry &&& 0xff
  let copyOffset := entry &&& 0x700
  let (writer, appended) ← writerAppendFromSelf writer ((copyOffset + trailer) % 4294967296) length
  return (d, writer, if appended then some (ip + entry >>> 11) else none)

/-- Processes the item at `ip`. -/
def decompressTag (d : Decompressor) (writer : Writer size) (ip : Nat) :
    Except SnappyError (Decompressor × Writer size × Option Nat) := do
  let c ← byteAt compressed d ip
  if c &&& 3 = 0 then decompressLiteral compressed d writer c (ip + 1) else decompressCopy compressed d writer c (ip + 1)

/-- The loop of `decompress_all_tags`. The check at its head repeats the one at the end of each branch. -/
def tagsLoop : Nat → Decompressor → Writer size → Nat → Except SnappyError (Decompressor × Writer size)
  | 0, _, _, _ => .error .rounds
  | fuel + 1, d, writer, ip =>
      maybeRefill compressed d writer ip fun d ip => do
        match ← decompressTag compressed d writer ip with
        | (d, writer, none) => return (d, writer)
        | (d, writer, some ip) => maybeRefill compressed d writer ip fun d ip => tagsLoop fuel d writer ip

def decompressAllTags (d : Decompressor) (writer : Writer size) : Except SnappyError (Decompressor × Writer size) :=
  maybeRefill compressed d writer d.ip fun d ip => tagsLoop compressed (n + 1) d writer ip

/-- `internal_uncompress`, where `scratch` is what its frame holds before it is written. -/
def internalUncompress (scratch : Buffer 5) (writer : Writer size) (maxLen : Nat) : Except SnappyError (Int × Writer size) := do
  match ← readUncompressedLength compressed (initSnappyDecompressor ⟨0, n⟩ scratch) with
  | (_, none) => return (eio, writer)
  | (d, some uncompressedLen) =>
      if maxLen < uncompressedLen then return (eio, writer)
      let (d, writer) ← decompressAllTags compressed d (writerSetExpectedLength writer uncompressedLen)
      let d ← exitSnappyDecompressor d
      return (if d.eof && writerCheckLength writer then 0 else eio, writer)

/-- The result of `snappy_uncompress`, with what it leaves in the buffer. -/
def snappyUncompress (scratch : Buffer 5) (uncompressed : Buffer size) : Except SnappyError (Int × Buffer size) := do
  let (result, writer) ← internalUncompress compressed scratch ⟨uncompressed, 0, 0⟩ 0xffffffff
  return (result, writer.mem)

end Input

end Rsvndump.Snappy
