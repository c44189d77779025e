import Rsvndump.Critbit.Tree
import Rsvndump.Library.Heap

/-! The operations of lib/critbit89 on memory.

Pointers are addresses, and a pointer to a node has its lowest bit set. The
functions return nothing when the program touches memory that it does not
hold, or when a loop runs for more rounds than allowed.
-/

set_option autoImplicit false

namespace Rsvndump

open Library

inductive CbBlock where
  | tree (root : Nat)
  | node (byte : Nat) (otherbits : UInt8) (child0 child1 : Nat)
  | str (bytes : Bytes)
  | uninitialized
  deriving DecidableEq

def enomem : Nat := 12

def sizeofNode : Nat := 24

/-- What `void **wherep` points to: the root of a tree, or a child of a node. -/
structure CbSlot where
  block : Nat
  direction : Nat
  deriving DecidableEq

def CbBlock.slot : CbBlock → Nat → Option Nat
  | .tree root, _ => some root
  | .node _ _ child0 child1, direction => some (if direction = 0 then child0 else child1)
  | .str _, _ | .uninitialized, _ => none

def CbBlock.setSlot (p : Nat) : CbBlock → Nat → Option CbBlock
  | .tree _, _ => some (.tree p)
  | .node byte otherbits child0 child1, direction =>
      some (if direction = 0 then .node byte otherbits p child1 else .node byte otherbits child0 p)
  | .str _, _ | .uninitialized, _ => none

/-- `*wherep` -/
def CbSlot.read (heap : Heap CbBlock) (wherep : CbSlot) : Option Nat := do
  (← heap wherep.block).slot wherep.direction

/-- `*wherep = p` -/
def CbSlot.write (heap : Heap CbBlock) (wherep : CbSlot) (p : Nat) : Option (Heap CbBlock) := do
  heap.write wherep.block (← (← heap wherep.block).setSlot p wherep.direction)

def loadString (heap : Heap CbBlock) (p : Nat) : Option Bytes :=
  match heap p with
  | some (.str bytes) => some bytes
  | _ => none

/-- `strcmp(str, p) == 0`, which reads up to the first difference. -/
def strEqual : CString → Bytes → Option Bool
  | _, [] => none
  | [], b :: _ => some (b = 0)
  | c :: str, b :: p => if c.byte = b then strEqual str p else some false

/-- The loop that leaves at `different_byte_found`, with `newbyte`, the
differing bits and `p[newbyte]`. -/
def findByte : CString → Bytes → Option (Option (Nat × UInt8 × UInt8))
  | _, [] => none
  -- behind the last character of the new string
  | [], b :: _ => some (if b ≠ 0 then some (0, b, b) else none)
  | u :: us, b :: bs =>
      if b ≠ u.byte then some (some (0, b ^^^ u.byte, b))
      else (findByte us bs).map (Option.map fun (newbyte, bits, c) => (newbyte + 1, bits, c))

/-- The descent that the operations start with. -/
def descend (heap : Heap CbBlock) (str : CString) : Nat → Nat → Option Nat
  | 0, _ => none
  | rounds + 1, p =>
      if p % 2 = 1 then
        match heap (p - 1) with
        | some (.node byte otherbits child0 child1) =>
            descend heap str rounds (if direction otherbits (ubyte str byte) = 0 then child0 else child1)
        | _ => none
      else some p

/-- The loop after "Insert into tree". -/
def findSlot (heap : Heap CbBlock) (str : CString) (newbyte : Nat) (newotherbits : UInt8) :
    Nat → CbSlot → Option CbSlot
  | 0, _ => none
  | rounds + 1, wherep => do
      let p ← wherep.read heap
      if p % 2 = 1 then
        match heap (p - 1) with
        | some (.node byte otherbits _ _) =>
            if byte > newbyte then some wherep
            else if byte = newbyte ∧ otherbits > newotherbits then some wherep
            else findSlot heap str newbyte newotherbits rounds ⟨p - 1, direction otherbits (ubyte str byte)⟩
        | _ => none
      else some wherep

/-- `newnode->child[newdirection] = *wherep; *wherep = 1 + newnode`, where all
fields of the new node are written together. -/
def linkNode (heap : Heap CbBlock) (newnode x newbyte : Nat) (newotherbits : UInt8) (newdirection : Nat)
    (wherep : CbSlot) : Option (Heap CbBlock) := do
  let p ← wherep.read heap
  let heap ← heap.write newnode
    (if newdirection = 0 then .node newbyte newotherbits p x else .node newbyte newotherbits x p)
  wherep.write heap (newnode + 1)

/-- The descent of the deletion: the leaf, and the last node before it with
the slot it hangs on and the direction taken there. -/
def descendDelete (heap : Heap CbBlock) (str : CString) :
    Nat → CbSlot → Option (CbSlot × Nat × Nat) → Option (Nat × Option (CbSlot × Nat × Nat))
  | 0, _, _ => none
  | rounds + 1, wherep, last => do
      let p ← wherep.read heap
      if p % 2 = 1 then
        match heap (p - 1) with
        | some (.node byte otherbits _ _) =>
            let direction := direction otherbits (ubyte str byte)
            descendDelete heap str rounds ⟨p - 1, direction⟩ (some (wherep, p - 1, direction))
        | _ => none
      else some (p, last)

/-- The sibling of a leaf takes the place of their node. -/
def unlinkNode (heap : Heap CbBlock) (whereq : CbSlot) (q direction : Nat) : Option (Heap CbBlock) := do
  let heap ← whereq.write heap (← CbSlot.read heap ⟨q, 1 - direction⟩)
  heap.free q

/-- `cbt_traverse_delete` -/
def traverseDelete : Nat → Heap CbBlock → Nat → Option (Heap CbBlock)
  | 0, _, _ => none
  | rounds + 1, heap, top =>
      if top % 2 = 1 then do
        let heap ← traverseDelete rounds heap (← CbSlot.read heap ⟨top - 1, 0⟩)
        let heap ← traverseDelete rounds heap (← CbSlot.read heap ⟨top - 1, 1⟩)
        heap.free (top - 1)
      else heap.free top

/-- `cbt_traverse_prefixed` -/
def traversePrefixed {S : Type} (heap : Heap CbBlock) (callback : CString → S → Int × S) :
    Nat → Nat → S → Option (Int × S)
  | 0, _, _ => none
  | rounds + 1, top, baton =>
      if top % 2 = 1 then
        match heap (top - 1) with
        | some (.node _ _ child0 child1) => do
            let (ret, baton) ← traversePrefixed heap callback rounds child0 baton
            if ret ≠ 0 then some (ret, baton) else traversePrefixed heap callback rounds child1 baton
        | _ => none
      else do
        let bytes ← loadString heap top
        some (callback (CString.ofBytes bytes) baton)

/-- The descent of the walk, which keeps the last subtree chosen inside the prefix. -/
def descendPrefixed (heap : Heap CbBlock) (str : CString) : Nat → Nat → Nat → Option Nat
  | 0, _, _ => none
  | rounds + 1, top, p =>
      if p % 2 = 1 then
        match heap (p - 1) with
        | some (.node byte otherbits child0 child1) =>
            let p := if direction otherbits (ubyte str byte) = 0 then child0 else child1
            descendPrefixed heap str rounds (if byte < str.length then p else top) p
        | _ => none
      else some top

/-! ## The interface, for the `cb_tree_t` at an address -/

namespace CbMemory

def contains (heap : Heap CbBlock) (rounds tree : Nat) (str : CString) : Option Bool := do
  let root ← CbSlot.read heap ⟨tree, 0⟩
  if root = 0 then some false
  else strEqual str (← loadString heap (← descend heap str rounds root))

def insert (alloc : Allocator CbBlock) (heap : Heap CbBlock) (rounds tree : Nat) (str : CString) :
    Option (Heap CbBlock × Nat) := do
  let root ← CbSlot.read heap ⟨tree, 0⟩
  if root = 0 then
    match alloc.answer heap (str.length + 1) with
    | none => some (heap, enomem)
    | some x =>
        let heap := heap.put x (.str (CString.bytes str ++ [0]))
        some (← CbSlot.write heap ⟨tree, 0⟩ x, 0)
  else
    match ← findByte str (← loadString heap (← descend heap str rounds root)) with
    | none => some (heap, 1)
    | some (newbyte, bits, c) =>
        let newotherbits := newOtherbits bits
        let newdirection := direction newotherbits c
        match alloc.answer heap sizeofNode with
        | none => some (heap, enomem)
        | some newnode =>
            let heap := heap.put newnode .uninitialized
            match alloc.answer heap (str.length + 1) with
            -- the node is given back; the tree has not been touched
            | none => some (← heap.free newnode, enomem)
            | some x =>
                let heap := heap.put x (.str (CString.bytes str ++ [0]))
                let wherep ← findSlot heap str newbyte newotherbits rounds ⟨tree, 0⟩
                some (← linkNode heap newnode x newbyte newotherbits newdirection wherep, 0)

def delete (heap : Heap CbBlock) (rounds tree : Nat) (str : CString) : Option (Heap CbBlock × Nat) := do
  let root ← CbSlot.read heap ⟨tree, 0⟩
  if root = 0 then some (heap, 1)
  else
    let (p, last) ← descendDelete heap str rounds ⟨tree, 0⟩ none
    if ← strEqual str (← loadString heap p) then
      let heap ← heap.free p
      match last with
      | none => some (← CbSlot.write heap ⟨tree, 0⟩ 0, 0)
      | some (whereq, q, direction) => some (← unlinkNode heap whereq q direction, 0)
    else some (heap, 1)

def clear (heap : Heap CbBlock) (rounds tree : Nat) : Option (Heap CbBlock) := do
  let root ← CbSlot.read heap ⟨tree, 0⟩
  let heap ← if root = 0 then some heap else traverseDelete rounds heap root
  CbSlot.write heap ⟨tree, 0⟩ 0

def walkPrefixed {S : Type} (heap : Heap CbBlock) (rounds tree : Nat) (str : CString)
    (callback : CString → S → Int × S) (baton : S) : Option (Int × S) := do
  let root ← CbSlot.read heap ⟨tree, 0⟩
  if root = 0 then some (0, baton)
  else traversePrefixed heap callback rounds (← descendPrefixed heap str rounds root root) baton

end CbMemory

end Rsvndump
