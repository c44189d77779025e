import Rsvndump.Library.CString
import Rsvndump.Library.Heap

/-! The hash tables of rhash.c, which own their keys and values.

An `apr_hash_t` keeps the pointers it is given. It reads a stored key when it
compares it with another one, so a key must not be released before its entry
has been taken out.
-/

set_option autoImplicit false

namespace Rsvndump

open Library Library.Heap

inductive RhBlock where
  | data (bytes : Bytes)
  | entry (key val : Nat)
  | uninitialized
  deriving DecidableEq

/-! ## The table of apr_hash_t -/

structure AprEntry where
  key : Nat
  klen : Nat
  val : Nat
  deriving DecidableEq

def loadBytes (heap : Heap RhBlock) (p : Nat) : Option Bytes :=
  match heap p with
  | some (.data bytes) => some bytes
  | _ => none

/-- The bytes before the terminator. -/
def untilZero : Bytes → Option Bytes
  | [] => none
  | b :: bytes => if b = 0 then some [] else (untilZero bytes).map (b :: ·)

/-- The key at `p`, where no length stands for APR_HASH_KEY_STRING. -/
def readKey (heap : Heap RhBlock) (p : Nat) : Option Nat → Option Bytes
  | none => do untilZero (← loadBytes heap p)
  | some klen => do
      let bytes ← loadBytes heap p
      if klen ≤ bytes.length then some (bytes.take klen) else none

/-- Keys of another length are not compared. -/
def aprMatches (heap : Heap RhBlock) (key : Bytes) (e : AprEntry) : Option Bool :=
  if e.klen = key.length then (readKey heap e.key (some e.klen)).map fun stored => decide (stored = key) else some false

def aprFind (heap : Heap RhBlock) (key : Bytes) : List AprEntry → Option (Option AprEntry)
  | [] => some none
  | e :: table => do if ← aprMatches heap key e then some (some e) else aprFind heap key table

def aprHashGet (heap : Heap RhBlock) (table : List AprEntry) (key : Nat) (klen : Option Nat) : Option (Option Nat) := do
  let found ← aprFind heap (← readKey heap key klen) table
  some (found.map AprEntry.val)

/-- `val` takes the place of the value of the key; none removes it. -/
def aprUpdate (heap : Heap RhBlock) (text : Bytes) (key : Nat) (val : Option Nat) : List AprEntry → Option (List AprEntry)
  | [] => some (val.elim [] fun val => [⟨key, text.length, val⟩])
  | e :: table => do
      if ← aprMatches heap text e then some (val.elim table fun val => { e with val := val } :: table)
      else some (e :: (← aprUpdate heap text key val table))

def aprHashSet (heap : Heap RhBlock) (table : List AprEntry) (key : Nat) (klen : Option Nat) (val : Option Nat) :
    Option (List AprEntry) := do
  aprUpdate heap (← readKey heap key klen) key val table

/-! ## rhash.c -/

/-- The bytes copied by `strdup()`, or by `memcpy()` for a given length. -/
def readVal (heap : Heap RhBlock) (p : Nat) (len : Option Nat) : Option Bytes :=
  match len with
  | none => (readKey heap p none).map (· ++ [0])
  | some len => readKey heap p (some len)

/-- `strdup()`, or `malloc()` and `memcpy()`, whose result is not checked. -/
def duplicate (alloc : Allocator RhBlock) (heap : Heap RhBlock) (p : Nat) (len : Option Nat) :
    Option (Heap RhBlock × Nat) := do
  let bytes ← readVal heap p len
  let a ← alloc.answer heap bytes.length
  some (heap.put a (.data bytes), a)

def loadEntry (heap : Heap RhBlock) (e : Nat) : Option (Nat × Nat) :=
  match heap e with
  | some (.entry key val) => some (key, val)
  | _ => none

def sizeofEntry : Nat := 16

def entryFree (heap : Heap RhBlock) (e : Nat) : Option (Heap RhBlock) := do
  let (key, val) ← loadEntry heap e
  let heap ← heap.free key
  let heap ← heap.free val
  heap.free e

def rhashSet (alloc : Allocator RhBlock) (heap : Heap RhBlock) (table : List AprEntry) (key : Nat) (klen : Option Nat)
    (val : Option Nat) (vlen : Option Nat) : Option (Heap RhBlock × List AprEntry) := do
  let entry ← aprHashGet heap table key klen
  match val, entry with
  | none, none => some (heap, table)
  | none, some entry =>
      let table ← aprHashSet heap table key klen none
      some (← entryFree heap entry, table)
  | some val, some entry =>
      let (k, v) ← loadEntry heap entry
      -- assert(val != entry->val)
      if val = v then none
      else
        let heap ← heap.free v
        let (heap, v) ← duplicate alloc heap val vlen
        some (← heap.write entry (.entry k v), table)
  | some val, none =>
      let entry ← alloc.answer heap sizeofEntry
      let heap := heap.put entry .uninitialized
      let (heap, k) ← duplicate alloc heap key klen
      let (heap, v) ← duplicate alloc heap val vlen
      let heap ← heap.write entry (.entry k v)
      some (heap, ← aprHashSet heap table k klen (some entry))

def rhashGet (heap : Heap RhBlock) (table : List AprEntry) (key : Nat) (klen : Option Nat) : Option (Option Nat) := do
  match ← aprHashGet heap table key klen with
  | none => some none
  | some entry => some (some (← loadEntry heap entry).2)

/-- The entries are collected in the order of the iteration, and released
after the table has been cleared. -/
def rhashClear (heap : Heap RhBlock) (order : List AprEntry) : Option (Heap RhBlock × List AprEntry) := do
  let heap ← (order.map AprEntry.val).reverse.foldlM entryFree heap
  some (heap, [])

end Rsvndump
