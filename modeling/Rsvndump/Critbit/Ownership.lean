import Mathlib.Data.Finset.Card
import Rsvndump.Critbit.Correctness
import Rsvndump.Critbit.Memory

/-! The operations on memory carry out those on trees, and own what they allocate. -/

set_option autoImplicit false

namespace Rsvndump

open Library Library.Heap

/-! ## Trees in memory -/

/-- The subtree that a pointer stands for, with the blocks that it owns. -/
inductive Shapes (heap : Heap CbBlock) : Nat → CbNode → Finset Nat → Prop where
  | leaf {p : Nat} {str : CString} (nonnull : p ≠ 0) (aligned : p % 2 = 0)
      (block : heap p = some (.str (CString.bytes str ++ [0]))) : Shapes heap p (.leaf str) {p}
  | node {a byte p0 p1 : Nat} {otherbits : UInt8} {child0 child1 : CbNode} {own0 own1 : Finset Nat}
      (aligned : a % 2 = 0) (block : heap a = some (.node byte otherbits p0 p1))
      (first : Shapes heap p0 child0 own0) (second : Shapes heap p1 child1 own1)
      (apart : Disjoint own0 own1) (top : a ∉ own0 ∪ own1) :
      Shapes heap (a + 1) (.node byte otherbits child0 child1) (insert a (own0 ∪ own1))

def CbNode.depth : CbNode → Nat
  | .leaf _ => 0
  | .node _ _ child0 child1 => max child0.depth child1.depth + 1

theorem CbNode.depth_lt (t : CbNode) : t.depth < t.strings.length := by
  induction t with
  | leaf => exact Nat.one_pos
  | node byte otherbits child0 child1 ih0 ih1 =>
    simp only [depth, strings, List.length_append]
    omega

section Shapes

variable {heap heap' : Heap CbBlock} {p : Nat} {t : CbNode} {own : Finset Nat}

theorem Shapes.nonnull (shapes : Shapes heap p t own) : p ≠ 0 := by
  cases shapes with
  | leaf nonnull => exact nonnull
  | node => exact Nat.succ_ne_zero _

theorem Shapes.held (shapes : Shapes heap p t own) : ∀ a ∈ own, heap a ≠ none := by
  induction shapes with
  | leaf nonnull aligned block =>
    intro a member
    simp [Finset.mem_singleton.mp member, block]
  | node aligned block first second apart top ih0 ih1 =>
    intro a member
    rcases Finset.mem_insert.mp member with rfl | member
    · simp [block]
    · rcases Finset.mem_union.mp member with member | member
      · exact ih0 a member
      · exact ih1 a member

/-- A subtree depends on its own blocks only. -/
theorem Shapes.agrees (shapes : Shapes heap p t own) (agrees : Agrees heap heap' own) : Shapes heap' p t own := by
  induction shapes with
  | leaf nonnull aligned block => exact .leaf nonnull aligned ((agrees _ (Finset.mem_singleton_self _)).trans block)
  | node aligned block first second apart top ih0 ih1 =>
    have below := agrees.mono (Finset.subset_insert _ _)
    exact .node aligned ((agrees _ (Finset.mem_insert_self _ _)).trans block) (ih0 (below.mono Finset.subset_union_left))
      (ih1 (below.mono Finset.subset_union_right)) apart top

theorem Shapes.card (shapes : Shapes heap p t own) : own.card + 1 = 2 * t.strings.length := by
  induction shapes with
  | leaf => rfl
  | node aligned block first second apart top ih0 ih1 =>
    rw [Finset.card_insert_of_notMem top, Finset.card_union_of_disjoint apart, CbNode.strings, List.length_append]
    omega

end Shapes

/-! ## Strings and directions -/

theorem direction_cases (otherbits c : UInt8) : direction otherbits c = 0 ∨ direction otherbits c = 1 := by
  have small : otherbits.toNat ||| c.toNat < 2 ^ 8 := Nat.or_lt_two_pow otherbits.toNat_lt c.toNat_lt
  unfold direction
  rw [Nat.shiftRight_eq_div_pow]
  omega

theorem strEqual_bytes (str p : CString) : strEqual str (CString.bytes p ++ [0]) = some (decide (p = str)) := by
  induction str generalizing p with
  | nil =>
    cases p with
    | nil => rfl
    | cons d p => simp [strEqual, CString.bytes, d.nonzero]
  | cons c str ih =>
    cases p with
    | nil => simp [strEqual, CString.bytes, c.nonzero]
    | cons d p =>
      have same : c.byte = d.byte ↔ d = c := by
        constructor
        · intro bytes
          cases c; cases d
          cases bytes
          rfl
        · rintro rfl
          rfl
      have rest : strEqual str (CString.bytes p ++ [0]) = some (decide (p = str)) := ih p
      by_cases equal : d = c <;> simp_all [strEqual, CString.bytes]

/-- The loop of the insertion finds what `differentByte` does, and the byte of the located string. -/
theorem findByte_bytes (str p : CString) : findByte str (CString.bytes p ++ [0]) =
    some ((differentByte p str).map fun found => (found.1, found.2, ubyte p found.1)) := by
  induction str generalizing p with
  | nil =>
    cases p with
    | nil => rfl
    | cons d p => simp [findByte, CString.bytes, differentByte, ubyte, d.nonzero]
  | cons u us ih =>
    cases p with
    | nil => simp [findByte, CString.bytes, differentByte, ubyte, Ne.symm u.nonzero]
    | cons d p =>
      have rest : findByte us (CString.bytes p ++ [0]) = _ := ih p
      by_cases equal : d.byte = u.byte
      · have tail : findByte (u :: us) (CString.bytes (d :: p) ++ [0]) =
            (findByte us (CString.bytes p ++ [0])).map (Option.map fun found => (found.1 + 1, found.2)) := by
          simp [findByte, CString.bytes, equal]
        rw [tail, rest]
        cases found : differentByte p us with
        | none => simp [differentByte, equal, found]
        | some pair => simp [differentByte, equal, found, ubyte]
      · simp [findByte, CString.bytes, differentByte, ubyte, equal]

/-! ## Descents -/

theorem descend_spec {heap : Heap CbBlock} {p rounds : Nat} {t : CbNode} {own : Finset Nat} (str : CString)
    (shapes : Shapes heap p t own) (enough : t.depth < rounds) :
    ∃ q, descend heap str rounds p = some q ∧ loadString heap q = some (CString.bytes (t.locate str) ++ [0]) := by
  induction shapes generalizing rounds with
  | @leaf p s nonnull aligned block =>
    obtain ⟨rounds, rfl⟩ := Nat.exists_eq_add_of_lt enough
    exact ⟨p, by simp [descend, aligned], by simp [loadString, block, CbNode.locate]⟩
  | @node a byte p0 p1 otherbits child0 child1 own0 own1 aligned block first second apart top ih0 ih1 =>
    obtain ⟨rounds, rfl⟩ : ∃ n, rounds = n + 1 := ⟨rounds - 1, by omega⟩
    have deeper : max child0.depth child1.depth < rounds := Nat.lt_of_succ_lt_succ enough
    have odd : (a + 1) % 2 = 1 := by omega
    simp only [descend, odd, if_true, Nat.add_sub_cancel, block, CbNode.locate]
    split
    · exact ih0 (Nat.lt_of_le_of_lt (Nat.le_max_left _ _) deeper)
    · exact ih1 (Nat.lt_of_le_of_lt (Nat.le_max_right _ _) deeper)

/-- The descent of the walk ends at the subtree that `prefixTop` chooses. -/
theorem descendPrefixed_spec {heap : Heap CbBlock} {p q rounds : Nat} {t top : CbNode} {own ownTop : Finset Nat}
    (str : CString) (shapes : Shapes heap p t own) (shapesTop : Shapes heap q top ownTop) (enough : t.depth < rounds) :
    ∃ q' own', descendPrefixed heap str rounds q p = some q' ∧ Shapes heap q' (prefixTop str top t) own' := by
  induction shapes generalizing rounds q top ownTop with
  | @leaf p s nonnull aligned block =>
    obtain ⟨rounds, rfl⟩ := Nat.exists_eq_add_of_lt enough
    exact ⟨q, ownTop, by simp [descendPrefixed, aligned], shapesTop⟩
  | @node a byte p0 p1 otherbits child0 child1 own0 own1 aligned block first second apart outside ih0 ih1 =>
    obtain ⟨rounds, rfl⟩ : ∃ n, rounds = n + 1 := ⟨rounds - 1, by omega⟩
    have deeper : max child0.depth child1.depth < rounds := Nat.lt_of_succ_lt_succ enough
    have odd : (a + 1) % 2 = 1 := by omega
    simp only [descendPrefixed, odd, if_true, Nat.add_sub_cancel, block, prefixTop]
    by_cases left : direction otherbits (ubyte str byte) = 0
    · simp only [left, if_true]
      have deeper0 := Nat.lt_of_le_of_lt (Nat.le_max_left _ _) deeper
      by_cases inside : byte < str.length
      · simpa only [inside, if_true] using ih0 first deeper0
      · simpa only [inside, if_false] using ih0 shapesTop deeper0
    · simp only [left, if_false]
      have deeper1 := Nat.lt_of_le_of_lt (Nat.le_max_right _ _) deeper
      by_cases inside : byte < str.length
      · simpa only [inside, if_true] using ih1 second deeper1
      · simpa only [inside, if_false] using ih1 shapesTop deeper1

/-! ## Replacing a subtree -/

theorem CbBlock.setSlot_slot {block : CbBlock} {direction p : Nat} (found : block.slot direction = some p) :
    block.setSlot p direction = some block := by
  cases block with
  | tree root =>
    cases found
    rfl
  | node byte otherbits child0 child1 =>
    by_cases zero : direction = 0 <;> simp_all [slot, setSlot]
  | str | uninitialized => cases found

/-- What hangs on a slot has been replaced by the tree `t'`, and nothing else
has changed but the blocks of the two trees. -/
structure Replaced (heap heap' : Heap CbBlock) (wherep : CbSlot) (t' : CbNode) (own own' : Finset Nat) : Prop where
  pointer : ∃ p', Shapes heap' p' t' own' ∧
    heap' wherep.block = (heap wherep.block).bind fun block => block.setSlot p' wherep.direction
  apart : wherep.block ∉ own'
  turns : Turns heap heap' (insert wherep.block own) (insert wherep.block own')

section Replaced

variable {heap heap' : Heap CbBlock} {a byte p0 p1 : Nat} {otherbits : UInt8} {child0 child1 child' : CbNode}
  {own0 own1 own' : Finset Nat} {wherep : CbSlot}

theorem CbSlot.held {p : Nat} (reads : wherep.read heap = some p) : heap wherep.block ≠ none := by
  intro missing
  simp [CbSlot.read, missing] at reads

/-- A slot that is not changed. -/
theorem CbSlot.unchanged {p : Nat} (reads : wherep.read heap = some p) (same : heap' wherep.block = heap wherep.block) :
    heap' wherep.block = (heap wherep.block).bind fun block => block.setSlot p wherep.direction := by
  rw [same]
  cases found : heap wherep.block with
  | none => rfl
  | some block =>
    have slot : block.slot wherep.direction = some p := by simpa [CbSlot.read, found] using reads
    exact (CbBlock.setSlot_slot slot).symm

/-- What else is in memory when the subtree on one side of the node `a` is replaced. -/
theorem Replaced.others {own other : Finset Nat} {side : Nat} (replaced : Replaced heap heap' ⟨a, side⟩ child' own own')
    (held : ∀ b ∈ insert wherep.block other, heap b ≠ none) (apart : Disjoint own other)
    (outside : wherep.block ∉ insert a (own ∪ other)) (top : a ∉ own ∪ other) :
    Agrees heap heap' (insert wherep.block other) ∧ Disjoint (insert a own') (insert wherep.block other) ∧
      Turns heap heap' (insert wherep.block (insert a (own ∪ other))) (insert wherep.block (insert a (own' ∪ other))) := by
  have apart' : Disjoint (insert a own) (insert wherep.block other) := by
    simp only [Finset.mem_insert, Finset.mem_union, not_or] at outside top
    rw [Finset.disjoint_insert_left, Finset.disjoint_insert_right]
    refine ⟨?_, outside.2.1, apart⟩
    rw [Finset.mem_insert, not_or]
    exact ⟨Ne.symm outside.1, top.2⟩
  have regroup : ∀ first second : Finset Nat, insert wherep.block (insert a (first ∪ second)) =
      insert a first ∪ insert wherep.block second := by
    intro first second
    rw [Finset.insert_union, Finset.union_insert, Finset.insert_comm]
  obtain ⟨agrees, apart''⟩ := replaced.turns.agrees held apart'
  rw [regroup own other, regroup own' other]
  exact ⟨agrees, apart'', replaced.turns.frame held apart'⟩

section Child

variable (aligned : a % 2 = 0) (block : heap a = some (.node byte otherbits p0 p1))
  (first : Shapes heap p0 child0 own0) (second : Shapes heap p1 child1 own1) (apart : Disjoint own0 own1)
  (top : a ∉ own0 ∪ own1) (reads : wherep.read heap = some (a + 1)) (outside : wherep.block ∉ insert a (own0 ∪ own1))
include aligned block apart top reads outside

include second in
theorem Replaced.left (replaced : Replaced heap heap' ⟨a, 0⟩ child' own0 own') :
    Replaced heap heap' wherep (.node byte otherbits child' child1) (insert a (own0 ∪ own1)) (insert a (own' ∪ own1)) := by
  have held : ∀ b ∈ insert wherep.block own1, heap b ≠ none := by
    intro b member
    rcases Finset.mem_insert.mp member with rfl | member
    · exact CbSlot.held reads
    · exact second.held b member
  obtain ⟨agrees, apart', turns⟩ := replaced.others held apart outside top
  obtain ⟨p', shapes, pointer⟩ := replaced.pointer
  have block' : heap' a = some (.node byte otherbits p' p1) := by
    rw [show heap' a = _ from pointer, block]
    rfl
  simp only [Finset.disjoint_insert_left, Finset.disjoint_insert_right, Finset.mem_insert, not_or] at apart'
  have top' : a ∉ own' ∪ own1 := by
    rw [Finset.mem_union, not_or]
    exact ⟨replaced.apart, apart'.2.1⟩
  constructor
  · have second' := second.agrees (agrees.mono (Finset.subset_insert _ _))
    refine ⟨a + 1, .node aligned block' shapes second' apart'.2.2 top', ?_⟩
    exact CbSlot.unchanged reads (agrees _ (Finset.mem_insert_self _ _))
  · simp only [Finset.mem_insert, Finset.mem_union, not_or] at outside ⊢
    exact ⟨outside.1, apart'.1.2, outside.2.2⟩
  · exact turns

include first in
theorem Replaced.right (replaced : Replaced heap heap' ⟨a, 1⟩ child' own1 own') :
    Replaced heap heap' wherep (.node byte otherbits child0 child') (insert a (own0 ∪ own1)) (insert a (own0 ∪ own')) := by
  have held : ∀ b ∈ insert wherep.block own0, heap b ≠ none := by
    intro b member
    rcases Finset.mem_insert.mp member with rfl | member
    · exact CbSlot.held reads
    · exact first.held b member
  rw [Finset.union_comm own0 own1] at top outside ⊢
  rw [Finset.union_comm own0 own']
  obtain ⟨agrees, apart', turns⟩ := replaced.others held apart.symm outside top
  obtain ⟨p', shapes, pointer⟩ := replaced.pointer
  have block' : heap' a = some (.node byte otherbits p0 p') := by
    rw [show heap' a = _ from pointer, block]
    rfl
  simp only [Finset.disjoint_insert_left, Finset.disjoint_insert_right, Finset.mem_insert, not_or] at apart'
  have top' : a ∉ own0 ∪ own' := by
    rw [Finset.mem_union, not_or]
    exact ⟨apart'.2.1, replaced.apart⟩
  constructor
  · rw [Finset.union_comm own' own0]
    have first' := first.agrees (agrees.mono (Finset.subset_insert _ _))
    refine ⟨a + 1, .node aligned block' first' shapes apart'.2.2.symm top', ?_⟩
    exact CbSlot.unchanged reads (agrees _ (Finset.mem_insert_self _ _))
  · simp only [Finset.mem_insert, Finset.mem_union, not_or] at outside ⊢
    exact ⟨outside.1, apart'.1.2, outside.2.2⟩
  · exact turns

end Child

end Replaced

/-! ## Insertion -/

theorem CbBlock.setSlot_isSome {block : CbBlock} {direction p : Nat} (found : block.slot direction = some p) (p' : Nat) :
    ∃ block', block.setSlot p' direction = some block' := by
  cases block with
  | tree root => exact ⟨_, rfl⟩
  | node byte otherbits child0 child1 => exact ⟨_, rfl⟩
  | str | uninitialized => cases found

/-- Memory after both allocations of an insertion. -/
def allocated (heap : Heap CbBlock) (newnode x : Nat) (str : CString) : Heap CbBlock :=
  (heap.put newnode .uninitialized).put x (.str (CString.bytes str ++ [0]))

section Insertion

variable {heap : Heap CbBlock} {newnode x : Nat} {str : CString} {newbyte newdirection : Nat} {newotherbits : UInt8}
  {p : Nat} {t : CbNode} {own : Finset Nat} {wherep : CbSlot}
  (unusedNode : heap newnode = none) (unusedLeaf : heap x = none) (different : newnode ≠ x)
  (alignedNode : newnode % 2 = 0) (nonnull : x ≠ 0) (alignedLeaf : x % 2 = 0)
include unusedNode unusedLeaf

theorem allocated_of_live {a : Nat} (live : heap a ≠ none) : allocated heap newnode x str a = heap a := by
  have notNode : a ≠ newnode := fun same => live (same ▸ unusedNode)
  have notLeaf : a ≠ x := fun same => live (same ▸ unusedLeaf)
  rw [allocated, Heap.put, Function.update_of_ne notLeaf, Heap.put, Function.update_of_ne notNode]

theorem allocated_read (reads : wherep.read heap = some p) : wherep.read (allocated heap newnode x str) = some p := by
  rw [← reads, CbSlot.read, CbSlot.read, allocated_of_live unusedNode unusedLeaf (CbSlot.held reads)]

include different alignedNode nonnull alignedLeaf

variable (str newbyte newdirection newotherbits) in
theorem linkNode_spec (shapes : Shapes heap p t own) (reads : wherep.read heap = some p) (outside : wherep.block ∉ own) :
    ∃ heap', linkNode (allocated heap newnode x str) newnode x newbyte newotherbits newdirection wherep = some heap' ∧
      Replaced heap heap' wherep (CbNode.insertAt.link str newbyte newotherbits newdirection t) own
        (insert newnode (insert x own)) := by
  obtain ⟨block, found, slot⟩ : ∃ block, heap wherep.block = some block ∧ block.slot wherep.direction = some p := by
    cases found : heap wherep.block with
    | none => exact absurd found (CbSlot.held reads)
    | some block => exact ⟨block, rfl, by simpa [CbSlot.read, found] using reads⟩
  obtain ⟨block', set⟩ := CbBlock.setSlot_isSome slot (newnode + 1)
  have notNode : wherep.block ≠ newnode := by
    rintro same
    simp [same, unusedNode] at found
  have notLeaf : wherep.block ≠ x := by
    rintro same
    simp [same, unusedLeaf] at found
  let linked := if newdirection = 0 then CbBlock.node newbyte newotherbits p x else .node newbyte newotherbits x p
  let heap' := ((allocated heap newnode x str).put newnode linked).put wherep.block block'
  have atNode : heap' newnode = some linked := by
    simp only [heap', Heap.put, Function.update_of_ne (Ne.symm notNode), Function.update_self]
  have atLeaf : heap' x = some (.str (CString.bytes str ++ [0])) := by
    simp only [heap', Heap.put, Function.update_of_ne (Ne.symm notLeaf), Function.update_of_ne (Ne.symm different),
      allocated, Function.update_self]
  have atSlot : heap' wherep.block = some block' := Function.update_self ..
  -- two new blocks are filled, and a slot of another one is written
  have turns : Turns heap heap' (insert wherep.block own) (insert wherep.block (insert newnode (insert x own))) := by
    have unusedBoth : heap.put newnode .uninitialized x = none := by rwa [Heap.put, Function.update_of_ne (Ne.symm different)]
    have new := (turns_new unusedNode .uninitialized).both
      (turns_new unusedBoth (.str (CString.bytes str ++ [0]))) (by simp) (by simp)
    have leafHeld : ∀ a ∈ ({x} : Finset Nat), allocated heap newnode x str a ≠ none := by simp [allocated]
    have filled := new.trans ((turns_write (allocated heap newnode x str) newnode linked).frame leafHeld (by simpa using different))
    have slotHeld : ∀ a ∈ ({wherep.block} : Finset Nat), heap a ≠ none := by simp [found]
    have whole := (filled.both (turns_write _ wherep.block block') slotHeld (by simp)).frame shapes.held (by simpa using outside)
    have regroup : {newnode} ∪ {x} ∪ {wherep.block} ∪ own = insert wherep.block (insert newnode (insert x own)) := by
      ext
      simp only [Finset.mem_insert, Finset.mem_union, Finset.mem_singleton, or_assoc, or_left_comm]
    rwa [Finset.empty_union, Finset.empty_union, ← Finset.insert_eq, regroup] at whole
  have nodeApart : newnode ∉ own := fun member => shapes.held newnode member unusedNode
  have leafApart : x ∉ own := fun member => shapes.held x member unusedLeaf
  have kept : Shapes heap' p t own := by
    apply shapes.agrees
    intro a member
    simp only [heap', Heap.put, Function.update_of_ne (ne_of_mem_of_not_mem member outside),
      Function.update_of_ne (ne_of_mem_of_not_mem member nodeApart)]
    exact allocated_of_live unusedNode unusedLeaf (shapes.held a member)
  have leafShapes : Shapes heap' x (.leaf str) {x} := .leaf nonnull alignedLeaf atLeaf
  refine ⟨heap', ?_, ⟨⟨newnode + 1, ?_, ?_⟩, ?_, ?_⟩⟩
  · have live : allocated heap newnode x str newnode = some .uninitialized := by
      rw [allocated, Heap.put, Function.update_of_ne different, Heap.put, Function.update_self]
    have same : ((allocated heap newnode x str).put newnode linked) wherep.block = some block := by
      rw [Heap.put, Function.update_of_ne notNode, allocated_of_live unusedNode unusedLeaf (by simp [found]), found]
    simp only [linkNode, allocated_read unusedNode unusedLeaf reads, Option.bind_eq_bind, Option.bind_some,
      Heap.write_of_live live, CbSlot.write]
    rw [same, Option.bind_some, set, Option.bind_some]
    exact Heap.write_of_live same block'
  · unfold CbNode.insertAt.link
    by_cases zero : newdirection = 0
    · rw [if_pos zero, show insert newnode (insert x own) = insert newnode (own ∪ {x}) by
        rw [Finset.union_comm, ← Finset.insert_eq]]
      apply Shapes.node alignedNode (by simpa [linked, zero] using atNode) kept leafShapes
      · simpa using leafApart
      · simp [nodeApart, different]
    · rw [if_neg zero, Finset.insert_eq x own]
      apply Shapes.node alignedNode (by simpa [linked, zero] using atNode) leafShapes kept
      · simpa using leafApart
      · simp [nodeApart, different]
  · rw [atSlot, found, Option.bind_some, set]
  · simp [notNode, notLeaf, outside]
  · exact turns

variable (str newbyte newdirection newotherbits) in
/-- The search for the slot, by induction on the tree that hangs on it. -/
theorem insertAt_memory {rounds : Nat} (shapes : Shapes heap p t own) (reads : wherep.read heap = some p)
    (outside : wherep.block ∉ own) (enough : t.depth < rounds) :
    ∃ slot heap', findSlot (allocated heap newnode x str) str newbyte newotherbits rounds wherep = some slot ∧
      linkNode (allocated heap newnode x str) newnode x newbyte newotherbits newdirection slot = some heap' ∧
      Replaced heap heap' wherep (t.insertAt str newbyte newotherbits newdirection) own (insert newnode (insert x own)) := by
  induction shapes generalizing wherep rounds with
  | @leaf p s nonnull' aligned block =>
    obtain ⟨rounds, rfl⟩ : ∃ n, rounds = n + 1 := ⟨rounds - 1, by omega⟩
    obtain ⟨heap', linked, replaced⟩ := linkNode_spec str newbyte newdirection newotherbits
      unusedNode unusedLeaf different alignedNode nonnull alignedLeaf
      (.leaf nonnull' aligned block) reads outside
    have stops : findSlot (allocated heap newnode x str) str newbyte newotherbits (rounds + 1) wherep = some wherep := by
      simp [findSlot, allocated_read unusedNode unusedLeaf reads, aligned]
    exact ⟨wherep, heap', stops, linked, replaced⟩
  | @node a byte p0 p1 otherbits child0 child1 own0 own1 aligned block first second apart top ih0 ih1 =>
    obtain ⟨rounds, rfl⟩ : ∃ n, rounds = n + 1 := ⟨rounds - 1, by omega⟩
    have deeper : max child0.depth child1.depth < rounds := Nat.lt_of_succ_lt_succ enough
    have odd : (a + 1) % 2 = 1 := by omega
    have block' : allocated heap newnode x str a = some (.node byte otherbits p0 p1) := by
      rw [allocated_of_live unusedNode unusedLeaf (by simp [block]), block]
    obtain ⟨heap', linked, replaced⟩ := linkNode_spec str newbyte newdirection newotherbits
      unusedNode unusedLeaf different alignedNode nonnull alignedLeaf
      (.node aligned block first second apart top) reads outside
    simp only [findSlot, allocated_read unusedNode unusedLeaf reads, Option.bind_eq_bind, Option.bind_some, odd, if_true,
      Nat.add_sub_cancel, block', CbNode.insertAt]
    by_cases later : byte > newbyte
    · simp only [later, if_true]
      exact ⟨wherep, heap', rfl, linked, replaced⟩
    · by_cases before : byte = newbyte ∧ otherbits > newotherbits
      · simp only [if_neg later, if_pos before]
        exact ⟨wherep, heap', rfl, linked, replaced⟩
      · simp only [if_neg later, if_neg before]
        simp only [Finset.mem_union, not_or] at top
        rcases direction_cases otherbits (ubyte str byte) with zero | one
        · simp only [zero, if_true]
          have reads0 : CbSlot.read heap ⟨a, 0⟩ = some p0 := by simp [CbSlot.read, block, CbBlock.slot]
          obtain ⟨slot, heap', found, linked, replaced⟩ := ih0 reads0 top.1
            (Nat.lt_of_le_of_lt (Nat.le_max_left _ _) deeper)
          refine ⟨slot, heap', found, linked, ?_⟩
          have whole := Replaced.left aligned block second apart (by simp [top]) reads outside replaced
          rwa [Finset.insert_union, Finset.insert_union, Finset.insert_comm a newnode, Finset.insert_comm a x] at whole
        · have side : ¬ (1 : Nat) = 0 := Nat.one_ne_zero
          simp only [one, side, if_false]
          have reads1 : CbSlot.read heap ⟨a, 1⟩ = some p1 := by simp [CbSlot.read, block, CbBlock.slot]
          obtain ⟨slot, heap', found, linked, replaced⟩ := ih1 reads1 top.2
            (Nat.lt_of_le_of_lt (Nat.le_max_right _ _) deeper)
          refine ⟨slot, heap', found, linked, ?_⟩
          have whole := Replaced.right aligned block first apart (by simp [top]) reads outside replaced
          rwa [Finset.union_insert, Finset.union_insert, Finset.insert_comm a newnode, Finset.insert_comm a x] at whole

end Insertion

/-! ## Deletion -/

section Deletion

variable {heap : Heap CbBlock} {str : CString} {a p leaf sibling side rounds : Nat} {t : CbNode} {own : Finset Nat}
  {wherep : CbSlot}

variable (side) in
/-- The sibling of a leaf moves up when the leaf and their node are released. -/
theorem unlinkNode_spec (liveLeaf : heap leaf ≠ none) (live : heap a ≠ none)
    (other : CbSlot.read heap ⟨a, 1 - side⟩ = some sibling) (shapes : Shapes heap sibling t own)
    (different : leaf ≠ a) (apartLeaf : leaf ∉ own) (apart : a ∉ own) (reads : wherep.read heap = some p)
    (outside : wherep.block ∉ insert a (insert leaf own)) :
    ∃ heap', (heap.free leaf).bind (fun heap => unlinkNode heap wherep a side) = some heap' ∧
      Replaced heap heap' wherep t (insert a (insert leaf own)) own := by
  obtain ⟨old, foundLeaf⟩ := Option.ne_none_iff_exists'.mp liveLeaf
  obtain ⟨block, found, slot⟩ : ∃ block, heap wherep.block = some block ∧ block.slot wherep.direction = some p := by
    cases found : heap wherep.block with
    | none => exact absurd found (CbSlot.held reads)
    | some block => exact ⟨block, rfl, by simpa [CbSlot.read, found] using reads⟩
  obtain ⟨block', set⟩ := CbBlock.setSlot_isSome slot sibling
  obtain ⟨node, foundNode⟩ := Option.ne_none_iff_exists'.mp live
  simp only [Finset.mem_insert, not_or] at outside
  let released := Function.update heap leaf none
  have remaining : ∀ b, b ≠ leaf → released b = heap b := fun b notLeaf => Function.update_of_ne notLeaf _ _
  let heap' := Function.update (Heap.put released wherep.block block') a none
  have atSlot : heap' wherep.block = some block' := by
    simp only [heap', Function.update_of_ne outside.1, Heap.put, Function.update_self]
  have kept : Shapes heap' sibling t own := by
    apply shapes.agrees
    intro b member
    simp only [heap', Function.update_of_ne (ne_of_mem_of_not_mem member apart), Heap.put,
      Function.update_of_ne (ne_of_mem_of_not_mem member outside.2.2), remaining b (ne_of_mem_of_not_mem member apartLeaf)]
  -- the leaf is released, then a slot is written, then the node is released
  have turns : Turns heap heap' (insert wherep.block (insert a (insert leaf own))) (insert wherep.block own) := by
    have slotHeld : ∀ b ∈ ({wherep.block} : Finset Nat), heap b ≠ none := by simp [found]
    have nodeHeld : ∀ b ∈ ({a} : Finset Nat), heap b ≠ none := by simp [foundNode]
    have written := (turns_free heap leaf).both (turns_write released wherep.block block') slotHeld
      (by simpa using Ne.symm outside.2.1)
    have freed := written.both (turns_free (Heap.put released wherep.block block') a) nodeHeld
      (by simpa using ⟨Ne.symm different, Ne.symm outside.1⟩)
    have whole := freed.frame shapes.held (by simpa using ⟨apartLeaf, outside.2.2, apart⟩)
    have regroup : {leaf} ∪ {wherep.block} ∪ {a} ∪ own = insert wherep.block (insert a (insert leaf own)) := by
      ext
      simp only [Finset.mem_insert, Finset.mem_union, Finset.mem_singleton, or_assoc, or_left_comm]
    rwa [Finset.empty_union, Finset.union_empty, regroup, ← Finset.insert_eq] at whole
  refine ⟨heap', ?_, ⟨⟨sibling, kept, ?_⟩, outside.2.2, ?_⟩⟩
  · have other' : CbSlot.read released ⟨a, 1 - side⟩ = some sibling := by
      rw [← other, CbSlot.read, CbSlot.read, remaining a (Ne.symm different)]
    have slot' : released wherep.block = some block := (remaining _ outside.2.1).trans found
    have node' : (Heap.put released wherep.block block') a = some node := by
      rw [Heap.put, Function.update_of_ne (Ne.symm outside.1), remaining a (Ne.symm different), foundNode]
    rw [Heap.free_of_live foundLeaf, Option.bind_some]
    change unlinkNode released wherep a side = some heap'
    simp only [unlinkNode, other', Option.bind_eq_bind, Option.bind_some, CbSlot.write, slot', set,
      Heap.write_of_live slot']
    exact Heap.free_of_live node'
  · rw [atSlot, found, Option.bind_some, set]
  · exact turns

variable (str) in
theorem descendDelete_leaf {s : CString} (last : Option (CbSlot × Nat × Nat)) (shapes : Shapes heap p (.leaf s) own)
    (reads : wherep.read heap = some p) (enough : 0 < rounds) :
    own = {p} ∧ descendDelete heap str rounds wherep last = some (p, last) ∧
      loadString heap p = some (CString.bytes s ++ [0]) := by
  cases shapes with
  | leaf nonnull aligned block =>
    obtain ⟨rounds, rfl⟩ : ∃ n, rounds = n + 1 := ⟨rounds - 1, by omega⟩
    exact ⟨rfl, by simp [descendDelete, reads, aligned], by simp [loadString, block]⟩

theorem CbNode.depth_cases (t : CbNode) : (∃ s, t = .leaf s) ∨ 0 < t.depth := by
  cases t with
  | leaf s => exact .inl ⟨s, rfl⟩
  | node => exact .inr (Nat.succ_pos _)

/-- The deletion below a slot on which a node hangs, by induction on its tree. -/
theorem delete_memory (shapes : Shapes heap p t own) (inner : 0 < t.depth) (reads : wherep.read heap = some p)
    (outside : wherep.block ∉ own) (enough : t.depth < rounds) (last : Option (CbSlot × Nat × Nat)) :
    ∃ leaf whereq q side, descendDelete heap str rounds wherep last = some (leaf, some (whereq, q, side)) ∧
      loadString heap leaf = some (CString.bytes (t.locate str) ++ [0]) ∧
      (t.locate str = str → ∃ heap' t' own',
        (heap.free leaf).bind (fun heap => unlinkNode heap whereq q side) = some heap' ∧
        t.remove str = some t' ∧ Replaced heap heap' wherep t' own own') := by
  induction shapes generalizing wherep rounds last with
  | leaf => exact absurd inner (Nat.lt_irrefl 0)
  | @node a byte p0 p1 otherbits child0 child1 own0 own1 aligned block first second apart top ih0 ih1 =>
    obtain ⟨rounds, rfl⟩ : ∃ n, rounds = n + 1 := ⟨rounds - 1, by omega⟩
    have deeper : max child0.depth child1.depth < rounds := Nat.lt_of_succ_lt_succ enough
    have odd : (a + 1) % 2 = 1 := by omega
    have live : heap a ≠ none := by simp [block]
    have reads0 : CbSlot.read heap ⟨a, 0⟩ = some p0 := by simp [CbSlot.read, block, CbBlock.slot]
    have reads1 : CbSlot.read heap ⟨a, 1⟩ = some p1 := by simp [CbSlot.read, block, CbBlock.slot]
    obtain ⟨top0, top1⟩ : a ∉ own0 ∧ a ∉ own1 := by simpa using top
    simp only [descendDelete, reads, Option.bind_eq_bind, Option.bind_some, odd, if_true, Nat.add_sub_cancel, block,
      CbNode.locate, CbNode.remove]
    rcases direction_cases otherbits (ubyte str byte) with zero | one
    · simp only [zero, if_true]
      have deeper0 := Nat.lt_of_le_of_lt (Nat.le_max_left _ _) deeper
      -- above a leaf, this node is the last one of the descent and its other child moves up
      rcases child0.depth_cases with ⟨s, rfl⟩ | inner0
      · obtain ⟨rfl, descends, loads⟩ := descendDelete_leaf str (some (wherep, a, 0)) first reads0 deeper0
        refine ⟨p0, wherep, a, 0, descends, loads, fun same => ?_⟩
        have gone : (CbNode.leaf s).remove str = none := if_pos same
        have leafApart : p0 ∉ own1 := Finset.disjoint_singleton_left.mp apart
        have different : p0 ≠ a := fun equal => top0 (equal ▸ Finset.mem_singleton_self p0)
        obtain ⟨heap', unlinks, replaced⟩ := unlinkNode_spec 0 (first.held p0 (Finset.mem_singleton_self p0)) live
          reads1 second different leafApart top1 reads outside
        exact ⟨heap', child1, own1, unlinks, by simp [gone], replaced⟩
      · obtain ⟨leaf, whereq, q, side, descends, loads, removes⟩ := ih0 inner0 reads0 top0 deeper0 (some (wherep, a, 0))
        refine ⟨leaf, whereq, q, side, descends, loads, fun same => ?_⟩
        obtain ⟨heap', t', own', unlinks, removed, replaced⟩ := removes same
        refine ⟨heap', .node byte otherbits t' child1, insert a (own' ∪ own1), unlinks, by simp [removed], ?_⟩
        exact Replaced.left aligned block second apart top reads outside replaced
    · have side : ¬ (1 : Nat) = 0 := Nat.one_ne_zero
      simp only [one, side, if_false]
      have deeper1 := Nat.lt_of_le_of_lt (Nat.le_max_right _ _) deeper
      rcases child1.depth_cases with ⟨s, rfl⟩ | inner1
      · obtain ⟨rfl, descends, loads⟩ := descendDelete_leaf str (some (wherep, a, 1)) second reads1 deeper1
        refine ⟨p1, wherep, a, 1, descends, loads, fun same => ?_⟩
        have gone : (CbNode.leaf s).remove str = none := if_pos same
        have leafApart : p1 ∉ own0 := Finset.disjoint_singleton_right.mp apart
        have different : p1 ≠ a := fun equal => top1 (equal ▸ Finset.mem_singleton_self p1)
        rw [Finset.union_comm own0 {p1}] at outside ⊢
        obtain ⟨heap', unlinks, replaced⟩ := unlinkNode_spec 1 (second.held p1 (Finset.mem_singleton_self p1)) live
          reads0 first different leafApart top0 reads outside
        exact ⟨heap', child0, own0, unlinks, by simp [gone], replaced⟩
      · obtain ⟨leaf, whereq, q, side, descends, loads, removes⟩ := ih1 inner1 reads1 top1 deeper1 (some (wherep, a, 1))
        refine ⟨leaf, whereq, q, side, descends, loads, fun same => ?_⟩
        obtain ⟨heap', t', own', unlinks, removed, replaced⟩ := removes same
        refine ⟨heap', .node byte otherbits child0 t', insert a (own0 ∪ own'), unlinks, by simp [removed], ?_⟩
        exact Replaced.right aligned block first apart top reads outside replaced

end Deletion

/-! ## Traversals -/

/-- The whole subtree is released, each block once. Its heap may differ from
the one described in blocks of others that are already released. -/
theorem traverseDelete_spec {heap heap1 : Heap CbBlock} {p rounds : Nat} {t : CbNode} {own : Finset Nat}
    (shapes : Shapes heap p t own) (agrees : Agrees heap heap1 own) (enough : t.depth < rounds) :
    ∃ heap', traverseDelete rounds heap1 p = some heap' ∧ Turns heap1 heap' own ∅ := by
  induction shapes generalizing rounds heap1 with
  | @leaf p s nonnull aligned block =>
    obtain ⟨rounds, rfl⟩ : ∃ n, rounds = n + 1 := ⟨rounds - 1, by omega⟩
    refine ⟨_, ?_, turns_free heap1 p⟩
    simp only [traverseDelete, aligned, Nat.zero_ne_one, if_false]
    exact Heap.free_of_live ((agrees p (Finset.mem_singleton_self p)).trans block)
  | @node a byte p0 p1 otherbits child0 child1 own0 own1 aligned block first second apart top ih0 ih1 =>
    obtain ⟨rounds, rfl⟩ : ∃ n, rounds = n + 1 := ⟨rounds - 1, by omega⟩
    have deeper : max child0.depth child1.depth < rounds := Nat.lt_of_succ_lt_succ enough
    have odd : (a + 1) % 2 = 1 := by omega
    obtain ⟨top0, top1⟩ : a ∉ own0 ∧ a ∉ own1 := by simpa using top
    have block1 : heap1 a = some (.node byte otherbits p0 p1) := (agrees a (Finset.mem_insert_self _ _)).trans block
    have below := agrees.mono (Finset.subset_insert _ _)
    have second1 := second.agrees (below.mono Finset.subset_union_right)
    obtain ⟨heap2, clears0, turns0⟩ := ih0 (below.mono Finset.subset_union_left)
      (Nat.lt_of_le_of_lt (Nat.le_max_left _ _) deeper)
    have kept : Agrees heap1 heap2 (insert a own1) := by
      refine (turns0.agrees ?_ ?_).1
      · intro b member
        rcases Finset.mem_insert.mp member with rfl | member
        · simp [block1]
        · exact second1.held b member
      · rw [Finset.disjoint_insert_right]
        exact ⟨top0, apart⟩
    have block2 : heap2 a = some (.node byte otherbits p0 p1) := (kept a (Finset.mem_insert_self _ _)).trans block1
    have still := (below.mono Finset.subset_union_right).trans (kept.mono (Finset.subset_insert _ _))
    obtain ⟨heap3, clears1, turns1⟩ := ih1 still
      (Nat.lt_of_le_of_lt (Nat.le_max_right _ _) deeper)
    have block3 : heap3 a = some (.node byte otherbits p0 p1) := by
      rw [turns1.elsewhere a top1 (Finset.notMem_empty a), block2]
    refine ⟨Function.update heap3 a none, ?_, ?_⟩
    · have reads0 : CbSlot.read heap1 ⟨a, 0⟩ = some p0 := by simp [CbSlot.read, block1, CbBlock.slot]
      have reads1 : CbSlot.read heap2 ⟨a, 1⟩ = some p1 := by simp [CbSlot.read, block2, CbBlock.slot]
      simp only [traverseDelete, odd, if_true, Nat.add_sub_cancel, reads0, Option.bind_eq_bind, Option.bind_some, clears0,
        reads1, clears1]
      exact Heap.free_of_live block3
    · have children := turns0.both turns1 second1.held apart
      have whole := children.both (turns_free heap3 a) (by simp [block1]) (by simpa using top)
      rw [Finset.union_comm _ {a}, ← Finset.insert_eq] at whole
      simpa using whole

/-- A callback is called on one string after the other until it asks to stop. -/
def visit {S : Type} (callback : CString → S → Int × S) : List CString → S → Int × S
  | [], baton => (0, baton)
  | s :: strings, baton =>
      let (ret, baton) := callback s baton
      if ret ≠ 0 then (ret, baton) else visit callback strings baton

theorem visit_append {S : Type} (callback : CString → S → Int × S) (first second : List CString) (baton : S) :
    visit callback (first ++ second) baton = if (visit callback first baton).1 ≠ 0 then visit callback first baton
      else visit callback second (visit callback first baton).2 := by
  induction first generalizing baton with
  | nil => simp [visit]
  | cons s first ih =>
    simp only [List.cons_append, visit]
    split
    · rfl
    · exact ih _

theorem traversePrefixed_spec {heap : Heap CbBlock} {p rounds : Nat} {t : CbNode} {own : Finset Nat} {S : Type}
    (callback : CString → S → Int × S) (shapes : Shapes heap p t own) (enough : t.depth < rounds) (baton : S) :
    traversePrefixed heap callback rounds p baton = some (visit callback t.strings baton) := by
  induction shapes generalizing rounds baton with
  | @leaf p s nonnull aligned block =>
    obtain ⟨rounds, rfl⟩ : ∃ n, rounds = n + 1 := ⟨rounds - 1, by omega⟩
    have once : visit callback [s] baton = callback s baton := by
      rcases called : callback s baton with ⟨ret, after⟩
      by_cases stays : ret = 0 <;> simp [visit, called, stays]
    simp [traversePrefixed, aligned, loadString, block, CbNode.strings, once]
  | @node a byte p0 p1 otherbits child0 child1 own0 own1 aligned block first second apart top ih0 ih1 =>
    obtain ⟨rounds, rfl⟩ : ∃ n, rounds = n + 1 := ⟨rounds - 1, by omega⟩
    have deeper : max child0.depth child1.depth < rounds := Nat.lt_of_succ_lt_succ enough
    have odd : (a + 1) % 2 = 1 := by omega
    simp only [traversePrefixed, odd, if_true, Nat.add_sub_cancel, block, CbNode.strings, visit_append,
      ih0 (Nat.lt_of_le_of_lt (Nat.le_max_left _ _) deeper), Option.bind_eq_bind, Option.bind_some]
    split
    · rfl
    · exact ih1 (Nat.lt_of_le_of_lt (Nat.le_max_right _ _) deeper) _

end Rsvndump
