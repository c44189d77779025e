import Rsvndump.Library.CString

/-! The crit-bit tree of lib/critbit89.

Internal nodes keep the index of the first byte in which their two subtrees
differ and the complement of the mask of the deciding bit. Reads past the end
of a string give the terminator, as in the source.
-/

set_option autoImplicit false

namespace Rsvndump

open Library

inductive CbNode where
  | leaf (str : CString)
  | node (byte : Nat) (otherbits : UInt8) (child0 child1 : CbNode)
  deriving DecidableEq

/-- `tree.root`, with `none` for the null pointer. -/
abbrev CbTree := Option CbNode

def cbTreeMake : CbTree := none

/-- `c = 0; if (q->byte < ulen) c = ubytes[q->byte]` -/
def ubyte (s : CString) (i : Nat) : UInt8 := (s[i]?.map CChar.byte).getD 0

/-- `(1 + (q->otherbits | c)) >> 8`, computed in an int. -/
def direction (otherbits c : UInt8) : Nat := (1 + (otherbits.toNat ||| c.toNat)) >>> 8

/-- The strings of a subtree, in the order in which `cbt_traverse_prefixed` visits them. -/
def CbNode.strings : CbNode → List CString
  | .leaf str => [str]
  | .node _ _ child0 child1 => child0.strings ++ child1.strings

def CbTree.strings : CbTree → List CString
  | none => []
  | some root => root.strings

/-- The leaf at the end of the descent that every operation starts with. -/
def CbNode.locate (s : CString) : CbNode → CString
  | .leaf str => str
  | .node byte otherbits child0 child1 =>
      if direction otherbits (ubyte s byte) = 0 then child0.locate s else child1.locate s

def cbTreeContains (tree : CbTree) (s : CString) : Bool :=
  match tree with
  | none => false
  | some root => decide (root.locate s = s)

/-- First differing byte of the located string and the new one, with the bits they differ in. -/
def differentByte : CString → CString → Option (Nat × UInt8)
  | [], [] => none
  -- the new string is a prefix of the located one
  | p :: _, [] => some (0, p.byte)
  | [], u :: _ => some (0, 0 ^^^ u.byte)
  | p :: ps, u :: us =>
      if p.byte ≠ u.byte then some (0, p.byte ^^^ u.byte)
      else (differentByte ps us).map fun (newbyte, bits) => (newbyte + 1, bits)

/-- The bit trick after `different_byte_found`: all bits but the highest differing one. -/
def newOtherbits (bits : UInt8) : UInt8 :=
  let bits := bits ||| (bits >>> 1)
  let bits := bits ||| (bits >>> 2)
  let bits := bits ||| (bits >>> 4)
  (bits &&& ~~~(bits >>> 1)) ^^^ 255

/-- The loop that finds `*wherep` and links the new node in front of it. -/
def CbNode.insertAt (s : CString) (newbyte : Nat) (newotherbits : UInt8) (newdirection : Nat) :
    CbNode → CbNode
  | p@(.leaf _) => link p
  | p@(.node byte otherbits child0 child1) =>
      if byte > newbyte then link p
      else if byte = newbyte ∧ otherbits > newotherbits then link p
      else if direction otherbits (ubyte s byte) = 0 then
        .node byte otherbits (child0.insertAt s newbyte newotherbits newdirection) child1
      else .node byte otherbits child0 (child1.insertAt s newbyte newotherbits newdirection)
where
  link (p : CbNode) : CbNode :=
    if newdirection = 0 then .node newbyte newotherbits p (.leaf s)
    else .node newbyte newotherbits (.leaf s) p

/-- Returns 1 when the string is already present. -/
def cbTreeInsert (tree : CbTree) (s : CString) : CbTree × Nat :=
  match tree with
  | none => (some (.leaf s), 0)
  | some root =>
      let p := root.locate s
      match differentByte p s with
      | none => (some root, 1)
      | some (newbyte, bits) =>
          let newotherbits := newOtherbits bits
          let newdirection := direction newotherbits (ubyte p newbyte)
          (some (root.insertAt s newbyte newotherbits newdirection), 0)

/-- Unlink the located leaf; its sibling takes the place of their parent. -/
def CbNode.remove (s : CString) : CbNode → CbTree
  | .leaf str => if str = s then none else some (.leaf str)
  | .node byte otherbits child0 child1 =>
      if direction otherbits (ubyte s byte) = 0 then
        match child0.remove s with
        | none => some child1
        | some rest => some (.node byte otherbits rest child1)
      else
        match child1.remove s with
        | none => some child0
        | some rest => some (.node byte otherbits child0 rest)

def cbTreeDelete (tree : CbTree) (s : CString) : CbTree × Nat :=
  match tree with
  | none => (none, 1)
  | some root => if root.locate s ≠ s then (some root, 1) else (root.remove s, 0)

/-- The descent of `cb_tree_walk_prefixed`; it looks at distinguishing bits only. -/
def prefixTop (s : CString) (top : CbNode) : CbNode → CbNode
  | .leaf _ => top
  | .node byte otherbits child0 child1 =>
      -- `top` follows as long as the deciding byte lies inside of the prefix
      if direction otherbits (ubyte s byte) = 0 then
        prefixTop s (if byte < s.length then child0 else top) child0
      else prefixTop s (if byte < s.length then child1 else top) child1

/-- The strings handed to a callback that never stops the walk. -/
def cbTreeWalkPrefixed (tree : CbTree) (s : CString) : List CString :=
  match tree with
  | none => []
  | some root => (prefixTop s root root).strings

end Rsvndump
