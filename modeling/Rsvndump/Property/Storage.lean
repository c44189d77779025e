import Rsvndump.Session

/-! The property storage of property.c.

Property sets are stored once for each content and shared by the paths that
have them. A `prop_ref_t` is known by its identifier: the count of a reference
never falls below the number of entries that hold it, so no entry outlives it.
-/

set_option autoImplicit false

namespace Rsvndump

open Library

abbrev PropMap := AprHash Bytes

/-! ## Serialization -/

/-- An `int` in memory (four bytes, least significant first). -/
def intBytes (n : Nat) : Bytes :=
  [UInt8.ofNat n, UInt8.ofNat (n / 256), UInt8.ofNat (n / 65536), UInt8.ofNat (n / 16777216)]

/-- `*(int *)bptr`; reading behind the buffer gives no value. -/
def readInt : Bytes → Option Int
  | b0 :: b1 :: b2 :: b3 :: _ =>
      let n := b0.toNat + 256 * b1.toNat + 65536 * b2.toNat + 16777216 * b3.toNat
      some (if n < 2147483648 then n else n - 4294967296)
  | _ => none

def serializeEntry (key : CString) (value : Bytes) : Bytes :=
  intBytes key.length ++ CString.bytes key ++ (intBytes value.length ++ value)

def propHashSerialize (props : PropMap) : Bytes :=
  props.entries.flatMap (fun e => serializeEntry e.1 e.2) ++ intBytes 0

/-- Each round consumes at least the two lengths, so as many rounds as bytes are enough. -/
def propHashReconstructLoop : Nat → PropMap → Bytes → Option PropMap
  | 0, _, _ => none
  | fuel + 1, props, data => do
      let len ← readInt data
      if len = 0 then return props
      -- a negative length leads out of the buffer
      guard (0 < len)
      let key := CString.ofBytes ((data.drop 4).take len.toNat)
      let data := (data.drop 4).drop len.toNat
      let len ← readInt data
      guard (0 ≤ len)
      let value := (data.drop 4).take len.toNat
      propHashReconstructLoop fuel (props.insert key value) ((data.drop 4).drop len.toNat)

/-- Reconstructs a property hash from its serialized form. -/
def propHashReconstruct (props : PropMap) (data : Bytes) : Option PropMap :=
  propHashReconstructLoop (data.length + 1) props data

/-! ## Storage -/

/-- The key of `gc` is read from a pointer to the reference with the size of a pointer, so it
is the front of the identifier. -/
def gcKey (id : Digest) : Bytes := id.take 8

structure PropertyStorage where
  refs : AList fun _ : Digest => Int
  entries : AprHash Digest
  db : AList fun _ : Digest => Bytes
  gc : AList fun _ : Bytes => Digest

def propertyStorageCreate : PropertyStorage := ⟨∅, ∅, ∅, ∅⟩

variable (sys : Platform)

/-- Saves the properties of the given path and references them. An entry that is replaced
keeps its count. -/
def propertyStore (store : PropertyStorage) (path : CString) (props : PropMap) : PropertyStorage :=
  -- an entry that was there does not give its reference back
  if props.entries.length = 0 then { store with entries := store.entries.erase path }
  else
    let data := propHashSerialize props
    let id := sys.md5 data
    let store :=
      match store.refs.lookup id with
      -- the same content has been stored before
      | some _ => store
      | none => { store with refs := store.refs.insert id 0, db := store.db.insert id (sys.compress data) }
    { store with
        refs := store.refs.insert id ((store.refs.lookup id).getD 0 + 1)
        entries := store.entries.insert path id }

/-- Removes an entry and marks its reference for cleanup when nothing holds it any more. -/
def dereference (store : PropertyStorage) (path : CString) (id : Digest) : Option PropertyStorage := do
  let count ← store.refs.lookup id
  return {
    store with
    entries := store.entries.erase path
    refs := store.refs.insert id (count - 1)
    gc :=
      if count - 1 ≤ 0 ∧ gcKey id ∉ store.gc then store.gc.insert (gcKey id) id else store.gc }

/-- Loads the properties of the given path and dereferences them. -/
def propertyLoad (store : PropertyStorage) (path : CString) (props : PropMap) :
    Option (PropMap × PropertyStorage) :=
  match store.entries.lookup path with
  | none => some (props, store)
  | some id => do
      let value ← store.db.lookup id
      let data ← sys.uncompress value
      let props ← propHashReconstruct props data
      let store ← dereference store path id
      return (props, store)

/-- Removes the properties of the given path from the storage (thus dereferencing them). -/
def propertyDelete (store : PropertyStorage) (path : CString) : Option PropertyStorage :=
  match store.entries.lookup path with
  | none => some store
  | some id => dereference store path id

/-- One round of the loop in `property_storage_cleanup`. -/
def cleanupOne (store : PropertyStorage) (id : Digest) : Option PropertyStorage := do
  let count ← store.refs.lookup id
  -- the content may have been stored again since it was marked
  return if count ≤ 0 then { store with refs := store.refs.erase id, db := store.db.erase id } else store

/-- Removes properties from the storage that have zero reference count. -/
def propertyStorageCleanup (store : PropertyStorage) : Option PropertyStorage := do
  let store ← (store.gc.entries.map Sigma.snd).foldlM cleanupOne store
  return { store with gc := ∅ }

end Rsvndump
