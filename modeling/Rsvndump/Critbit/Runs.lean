import Rsvndump.Critbit.Order
import Rsvndump.Critbit.Ownership

/-! Any number of trees in one memory, over whole runs. -/

set_option autoImplicit false

namespace Rsvndump

open Library Library.Heap

/-! ## The interface -/

inductive Rooted (heap : Heap CbBlock) : Nat → CbTree → Finset Nat → Prop where
  | null : Rooted heap 0 none ∅
  | root {p : Nat} {t : CbNode} {below : Finset Nat} (shapes : Shapes heap p t below) : Rooted heap p (some t) below

/-- The `cb_tree_t` at `tree` stands for a set of strings, with the blocks below its root. -/
structure HoldsTree (heap : Heap CbBlock) (tree : Nat) (set : CbSet) (below : Finset Nat) : Prop where
  rooted : ∃ root, heap tree = some (.tree root) ∧ Rooted heap root set.tree below
  apart : tree ∉ below

theorem prefixTop_depth (str : CString) {top t : CbNode} {n : Nat} (boundTop : top.depth < n) (bound : t.depth < n) :
    (prefixTop str top t).depth < n := by
  induction t generalizing top with
  | leaf => exact boundTop
  | node byte otherbits child0 child1 ih0 ih1 =>
    have deeper : max child0.depth child1.depth + 1 < n := bound
    have bound0 : child0.depth < n := by omega
    have bound1 : child1.depth < n := by omega
    unfold prefixTop
    split
    · apply ih0 _ bound0
      split <;> assumption
    · apply ih1 _ bound1
      split <;> assumption

section Interface

variable {heap heap' : Heap CbBlock} {tree rounds : Nat} {set : CbSet} {below : Finset Nat}

theorem HoldsTree.held (holds : HoldsTree heap tree set below) : ∀ a ∈ insert tree below, heap a ≠ none := by
  obtain ⟨t, wf⟩ := set
  obtain ⟨root, block, rooted⟩ := holds.rooted
  intro a member
  rcases Finset.mem_insert.mp member with rfl | member
  · simp [block]
  · cases rooted with
    | null => exact absurd member (Finset.notMem_empty a)
    | root shapes => exact shapes.held a member

theorem HoldsTree.agrees (holds : HoldsTree heap tree set below) (agrees : Agrees heap heap' (insert tree below)) :
    HoldsTree heap' tree set below := by
  obtain ⟨t, wf⟩ := set
  obtain ⟨root, block, rooted⟩ := holds.rooted
  refine ⟨⟨root, (agrees tree (Finset.mem_insert_self _ _)).trans block, ?_⟩, holds.apart⟩
  cases rooted with
  | null => exact .null
  | root shapes => exact .root (shapes.agrees (agrees.mono (Finset.subset_insert _ _)))

/-- A node and a string for each string but the first. -/
theorem HoldsTree.card (holds : HoldsTree heap tree set below) :
    (insert tree below).card = max 1 (2 * set.tree.strings.length) := by
  obtain ⟨root, block, rooted⟩ := holds.rooted
  rw [Finset.card_insert_of_notMem holds.apart]
  obtain ⟨t, wf⟩ := set
  cases rooted with
  | null => rfl
  | @root root t below shapes =>
    have count := shapes.card
    have some := t.depth_lt
    simp only [CbTree.strings]
    omega

theorem read_root {root : Nat} (block : heap tree = some (.tree root)) : CbSlot.read heap ⟨tree, 0⟩ = some root := by
  simp [CbSlot.read, block, CbBlock.slot]

theorem write_root {root : Nat} (block : heap tree = some (.tree root)) (p : Nat) :
    CbSlot.write heap ⟨tree, 0⟩ p = some (heap.put tree (.tree p)) := by
  simp only [CbSlot.write, block, CbBlock.setSlot, Option.bind_eq_bind, Option.bind_some]
  exact Heap.write_of_live block _

theorem HoldsTree.contains_spec (holds : HoldsTree heap tree set below) (enough : set.tree.strings.length ≤ rounds)
    (str : CString) : CbMemory.contains heap rounds tree str = some (decide (str ∈ set)) := by
  obtain ⟨root, block, rooted⟩ := holds.rooted
  obtain ⟨t, wf⟩ := set
  cases rooted with
  | null => simp [CbMemory.contains, read_root block, CbSet.mem_def, CbTree.strings]
  | @root root t below shapes =>
    obtain ⟨q, descends, loads⟩ := descend_spec str shapes (Nat.lt_of_lt_of_le t.depth_lt enough)
    have present : t.locate str = str ↔ str ∈ (⟨some t, wf⟩ : CbSet) := CbNode.locate_eq_iff wf str
    simp [CbMemory.contains, read_root block, shapes.nonnull, descends, loads, strEqual_bytes, present]

theorem HoldsTree.clear_spec (holds : HoldsTree heap tree set below) (enough : set.tree.strings.length ≤ rounds) :
    ∃ heap', CbMemory.clear heap rounds tree = some heap' ∧ HoldsTree heap' tree CbSet.empty ∅ ∧
      Turns heap heap' (insert tree below) (insert tree ∅) := by
  obtain ⟨root, block, rooted⟩ := holds.rooted
  obtain ⟨t, wf⟩ := set
  cases rooted with
  | null =>
    refine ⟨heap.put tree (.tree 0), ?_, ⟨⟨0, Function.update_self .., .null⟩, Finset.notMem_empty _⟩,
      turns_write heap tree _⟩
    simp [CbMemory.clear, read_root block, write_root block]
  | @root root t below shapes =>
    obtain ⟨heap1, clears, turns⟩ := traverseDelete_spec shapes (Agrees.refl heap _) (Nat.lt_of_lt_of_le t.depth_lt enough)
    have block1 : heap1 tree = some (.tree root) := by
      rw [turns.elsewhere tree holds.apart (Finset.notMem_empty _), block]
    refine ⟨heap1.put tree (.tree 0), ?_, ⟨⟨0, Function.update_self .., .null⟩, Finset.notMem_empty _⟩, ?_⟩
    · simp [CbMemory.clear, read_root block, shapes.nonnull, clears, write_root block1]
    · have both := turns.both (turns_write heap1 tree (.tree 0)) (by simp [block]) (by simpa using holds.apart)
      rw [Finset.union_comm _ {tree}, ← Finset.insert_eq, Finset.union_comm _ {tree}, ← Finset.insert_eq] at both
      exact both

/-- The callback sees the strings of the walk in order, until it asks to stop. -/
theorem HoldsTree.walkPrefixed_spec {S : Type} (holds : HoldsTree heap tree set below)
    (enough : set.tree.strings.length ≤ rounds) (str : CString) (callback : CString → S → Int × S) (baton : S) :
    CbMemory.walkPrefixed heap rounds tree str callback baton =
      some (visit callback (cbTreeWalkPrefixed set.tree str) baton) := by
  obtain ⟨root, block, rooted⟩ := holds.rooted
  obtain ⟨t, wf⟩ := set
  cases rooted with
  | null => simp [CbMemory.walkPrefixed, read_root block, cbTreeWalkPrefixed, visit]
  | @root root t below shapes =>
    have deep := Nat.lt_of_lt_of_le t.depth_lt enough
    obtain ⟨q, own, descends, shapesTop⟩ := descendPrefixed_spec str shapes shapes deep
    have deepTop : (prefixTop str t t).depth < rounds := prefixTop_depth str deep deep
    simp [CbMemory.walkPrefixed, read_root block, shapes.nonnull, descends, cbTreeWalkPrefixed,
      traversePrefixed_spec callback shapesTop deepTop]

/-- What an insertion reports, and the strings afterwards. -/
inductive Inserted (alloc : Allocator CbBlock) (str : CString) (set : CbSet) : Nat → CbSet → Prop where
  | new (absent : str ∉ set) : Inserted alloc str set 0 (set.insert str)
  | present (member : str ∈ set) : Inserted alloc str set 1 set
  | memory (absent : str ∉ set) (refused : ∃ heap size, alloc.answer heap size = none) : Inserted alloc str set enomem set

theorem HoldsTree.insert_null (alloc : Allocator CbBlock) (str : CString) (holds : HoldsTree heap tree CbSet.empty below)
    (block : heap tree = some (.tree 0)) :
    ∃ heap' status set' below', CbMemory.insert alloc heap rounds tree str = some (heap', status) ∧
      HoldsTree heap' tree set' below' ∧ Turns heap heap' (insert tree below) (insert tree below') ∧
      Inserted alloc str CbSet.empty status set' := by
  have absent : str ∉ CbSet.empty := by simp
  cases asked : alloc.answer heap (str.length + 1) with
  | none =>
    refine ⟨heap, enomem, CbSet.empty, below, ?_, holds, .refl holds.held, .memory absent ⟨_, _, asked⟩⟩
    simp [CbMemory.insert, read_root block, asked]
  | some x =>
    have unused := alloc.unused asked
    have different : tree ≠ x := by
      rintro rfl
      rw [block] at unused
      cases unused
    let filled := heap.put x (.str (CString.bytes str ++ [0]))
    have block' : filled tree = some (.tree 0) := (Function.update_of_ne different _ _).trans block
    refine ⟨filled.put tree (.tree x), 0, CbSet.empty.insert str, {x}, ?_, ⟨⟨x, Function.update_self .., ?_⟩, ?_⟩, ?_,
      .new absent⟩
    · simp only [CbMemory.insert, read_root block, asked, Option.bind_eq_bind, Option.bind_some, if_true]
      rw [show CbSlot.write (heap.put x (.str (CString.bytes str ++ [0]))) ⟨tree, 0⟩ x = some (filled.put tree (.tree x)) from
        write_root block' x]
      rfl
    · apply Rooted.root
      apply Shapes.leaf (alloc.aligned asked).1 (alloc.aligned asked).2
      rw [Heap.put, Function.update_of_ne (Ne.symm different)]
      exact Function.update_self ..
    · simpa using different
    · obtain rfl : below = ∅ := by
        obtain ⟨root, _, rooted⟩ := holds.rooted
        cases rooted
        rfl
      have both := (turns_new unused (.str (CString.bytes str ++ [0]))).both (turns_write filled tree (.tree x))
        (by simp [block]) (Finset.disjoint_empty_left _)
      rw [Finset.union_comm {x}, Finset.empty_union, ← Finset.insert_eq] at both
      exact both

theorem HoldsTree.insert_spec (alloc : Allocator CbBlock) (str : CString) (holds : HoldsTree heap tree set below)
    (enough : set.tree.strings.length ≤ rounds) :
    ∃ heap' status set' below', CbMemory.insert alloc heap rounds tree str = some (heap', status) ∧
      HoldsTree heap' tree set' below' ∧ Turns heap heap' (insert tree below) (insert tree below') ∧
      Inserted alloc str set status set' := by
  obtain ⟨root, block, rooted⟩ := holds.rooted
  obtain ⟨t, wf⟩ := set
  cases rooted with
  | null => exact holds.insert_null alloc str block
  | @root root t below shapes =>
    have deep := Nat.lt_of_lt_of_le t.depth_lt enough
    obtain ⟨q, descends, loads⟩ := descend_spec str shapes deep
    have present : t.locate str = str ↔ str ∈ (⟨some t, wf⟩ : CbSet) := CbNode.locate_eq_iff wf str
    cases differs : differentByte (t.locate str) str with
    | none =>
      have member := present.mp ((differentByte_eq_none _ _).mp differs)
      refine ⟨heap, 1, ⟨some t, wf⟩, below, ?_, holds, .refl holds.held, .present member⟩
      simp [CbMemory.insert, read_root block, shapes.nonnull, descends, loads, findByte_bytes, differs]
    | some pair =>
      obtain ⟨newbyte, bits⟩ := pair
      have absent : str ∉ (⟨some t, wf⟩ : CbSet) := by
        rw [← present, ← differentByte_eq_none, differs]
        exact Option.some_ne_none _
      cases asked : alloc.answer heap sizeofNode with
      | none =>
        refine ⟨heap, enomem, ⟨some t, wf⟩, below, ?_, holds, .refl holds.held, .memory absent ⟨_, _, asked⟩⟩
        simp [CbMemory.insert, read_root block, shapes.nonnull, descends, loads, findByte_bytes, differs, asked]
      | some newnode =>
        have unusedNode := alloc.unused asked
        cases asked' : alloc.answer (heap.put newnode .uninitialized) (str.length + 1) with
        | none =>
          -- nothing but the node has been allocated
          have released : (heap.put newnode .uninitialized).free newnode = some heap := by
            rw [Heap.free_of_live (Function.update_self ..), Function.update_idem, ← unusedNode, Function.update_eq_self]
          refine ⟨heap, enomem, ⟨some t, wf⟩, below, ?_, holds, .refl holds.held, .memory absent ⟨_, _, asked'⟩⟩
          simp only [CbMemory.insert, read_root block, shapes.nonnull, descends, loads, findByte_bytes, differs, asked, asked',
            released, Option.bind_eq_bind, Option.bind_some, Option.map_some, if_false]
        | some x =>
          have unusedBoth := alloc.unused asked'
          have different : newnode ≠ x := by
            rintro rfl
            rw [Heap.put, Function.update_self] at unusedBoth
            cases unusedBoth
          have unusedLeaf : heap x = none := by rwa [Heap.put, Function.update_of_ne (Ne.symm different)] at unusedBoth
          have outside : tree ∉ below := holds.apart
          -- the search for the slot runs over the tree as it was before the allocations
          obtain ⟨slot, heap', found, linked, replaced⟩ := insertAt_memory str newbyte
            (direction (newOtherbits bits) (ubyte (t.locate str) newbyte)) (newOtherbits bits) unusedNode unusedLeaf different
            (alloc.aligned asked).2 (alloc.aligned asked').1 (alloc.aligned asked').2 shapes (read_root block) outside deep
          have grown : ((⟨some t, wf⟩ : CbSet).insert str).tree = some (t.insertAt str newbyte (newOtherbits bits)
              (direction (newOtherbits bits) (ubyte (t.locate str) newbyte))) := by
            simp [CbSet.insert, cbTreeInsert, differs]
          obtain ⟨p', shapes', pointer⟩ := replaced.pointer
          have block' : heap' tree = some (.tree p') := by
            rw [show heap' tree = _ from pointer, block]
            rfl
          refine ⟨heap', 0, (⟨some t, wf⟩ : CbSet).insert str, insert newnode (insert x below), ?_,
            ⟨⟨p', block', ?_⟩, ?_⟩, replaced.turns, .new absent⟩
          · simp only [allocated] at found linked
            simp only [CbMemory.insert, read_root block, shapes.nonnull, descends, loads, findByte_bytes, differs, asked, asked',
              found, linked, Option.bind_eq_bind, Option.bind_some, Option.map_some, if_false]
          · rw [grown]
            exact .root shapes'
          · exact replaced.apart

/-- What a deletion reports, and the strings afterwards. -/
inductive Deleted (str : CString) (set : CbSet) : Nat → CbSet → Prop where
  | removed (member : str ∈ set) : Deleted str set 0 (set.delete str)
  | missing (absent : str ∉ set) : Deleted str set 1 set

theorem HoldsTree.delete_spec (str : CString) (holds : HoldsTree heap tree set below)
    (enough : set.tree.strings.length ≤ rounds) :
    ∃ heap' status set' below', CbMemory.delete heap rounds tree str = some (heap', status) ∧
      HoldsTree heap' tree set' below' ∧ Turns heap heap' (insert tree below) (insert tree below') ∧
      Deleted str set status set' := by
  obtain ⟨root, block, rooted⟩ := holds.rooted
  obtain ⟨t, wf⟩ := set
  cases rooted with
  | null =>
    refine ⟨heap, 1, ⟨none, wf⟩, ∅, ?_, holds, .refl holds.held, .missing (by simp [CbSet.mem_def, CbTree.strings])⟩
    simp [CbMemory.delete, read_root block]
  | @root root t below shapes =>
    have deep := Nat.lt_of_lt_of_le t.depth_lt enough
    have present : t.locate str = str ↔ str ∈ (⟨some t, wf⟩ : CbSet) := CbNode.locate_eq_iff wf str
    -- a leaf at the root has no node that goes with it
    rcases t.depth_cases with ⟨s, rfl⟩ | inner
    · obtain ⟨rfl, descends, loads⟩ := descendDelete_leaf str none shapes (read_root block)
        (Nat.lt_of_le_of_lt (Nat.zero_le _) deep)
      have nonnull := shapes.nonnull
      by_cases same : s = str
      · have released : heap.free root = some (Function.update heap root none) := by
          obtain ⟨old, found⟩ := Option.ne_none_iff_exists'.mp (shapes.held root (Finset.mem_singleton_self root))
          exact Heap.free_of_live found
        have different : tree ≠ root := by simpa using holds.apart
        have block' : (Function.update heap root none : Heap CbBlock) tree = some (.tree root) :=
          (Function.update_of_ne different _ _).trans block
        have emptied : ((⟨some (.leaf s), wf⟩ : CbSet).delete str).tree = none := by
          simp [CbSet.delete, cbTreeDelete, CbNode.locate, CbNode.remove, same]
        refine ⟨Heap.put (Function.update heap root none) tree (.tree 0), 0,
          (⟨some (.leaf s), wf⟩ : CbSet).delete str, ∅, ?_, ⟨⟨0, Function.update_self .., ?_⟩, Finset.notMem_empty _⟩, ?_,
          .removed (present.mp same)⟩
        · simp only [CbMemory.delete, read_root block, nonnull, descends, loads, strEqual_bytes, same, released,
            write_root block', Option.bind_eq_bind, Option.bind_some, if_false, decide_true, if_true]
        · rw [emptied]
          exact .null
        · have both := (turns_free heap root).both (turns_write (Function.update heap root none) tree (.tree 0))
            (by simp [block]) (by simpa using Ne.symm different)
          rw [Finset.union_comm {root}, ← Finset.insert_eq, Finset.empty_union] at both
          exact both
      · refine ⟨heap, 1, ⟨some (.leaf s), wf⟩, {root}, ?_, holds, .refl holds.held,
          .missing (fun member => same (present.mpr member))⟩
        simp [CbMemory.delete, read_root block, descends, loads, strEqual_bytes, same]
    · obtain ⟨leaf, whereq, q, side, descends, loads, removes⟩ :=
        delete_memory shapes inner (read_root block) holds.apart deep none
      by_cases same : t.locate str = str
      · obtain ⟨heap', t', own', unlinks, removed, replaced⟩ := removes same
        obtain ⟨p', shapes', pointer⟩ := replaced.pointer
        have block' : heap' tree = some (.tree p') := by
          rw [show heap' tree = _ from pointer, block]
          rfl
        have shrunk : ((⟨some t, wf⟩ : CbSet).delete str).tree = some t' := by
          simp [CbSet.delete, cbTreeDelete, same, removed]
        refine ⟨heap', 0, (⟨some t, wf⟩ : CbSet).delete str, own', ?_, ⟨⟨p', block', ?_⟩, ?_⟩, replaced.turns,
          .removed (present.mp same)⟩
        · simp only [CbMemory.delete, read_root block, shapes.nonnull, descends, loads, strEqual_bytes, same,
            Option.bind_eq_bind, Option.bind_some, if_false, decide_true, if_true]
          rw [← Option.bind_assoc, unlinks, Option.bind_some]
        · rw [shrunk]
          exact .root shapes'
        · exact replaced.apart
      · refine ⟨heap, 1, ⟨some t, wf⟩, below, ?_, holds, .refl holds.held,
          .missing (fun member => same (present.mpr member))⟩
        simp [CbMemory.delete, read_root block, descends, loads, strEqual_bytes, same]

end Interface

/-! ## Runs -/

inductive CbCall where
  | insert (tree : Nat) (str : CString) (alloc : Allocator CbBlock)
  | delete (tree : Nat) (str : CString)
  | contains (tree : Nat) (str : CString)
  | clear (tree : Nat)
  | walkPrefixed (tree : Nat) (str : CString)

inductive CbAnswer where
  | status (n : Nat)
  | found (present : Bool)
  | cleared
  | walked (strings : List CString)
  deriving DecidableEq

def CbCall.tree : CbCall → Nat
  | .insert tree _ _ | .delete tree _ | .contains tree _ | .clear tree | .walkPrefixed tree _ => tree

/-- A callback that keeps what it is called on. -/
def collect (s : CString) (strings : List CString) : Int × List CString := (0, strings ++ [s])

theorem visit_collect (strings before : List CString) : visit collect strings before = (0, before ++ strings) := by
  induction strings generalizing before with
  | nil => simp [visit]
  | cons s strings ih => simp [visit, collect, ih]

def cbStep (rounds : Nat) (heap : Heap CbBlock) : CbCall → Option (CbAnswer × Heap CbBlock)
  | .insert tree str alloc => (CbMemory.insert alloc heap rounds tree str).map fun (heap, n) => (.status n, heap)
  | .delete tree str => (CbMemory.delete heap rounds tree str).map fun (heap, n) => (.status n, heap)
  | .contains tree str => (CbMemory.contains heap rounds tree str).map fun present => (.found present, heap)
  | .clear tree => (CbMemory.clear heap rounds tree).map fun heap => (.cleared, heap)
  | .walkPrefixed tree str =>
      (CbMemory.walkPrefixed heap rounds tree str collect []).map fun (_, strings) => (.walked strings, heap)

def cbRun (rounds : Nat) : Heap CbBlock → List CbCall → Option (List CbAnswer × Heap CbBlock)
  | heap, [] => some ([], heap)
  | heap, call :: calls => do
      let (answer, heap) ← cbStep rounds heap call
      let (answers, heap) ← cbRun rounds heap calls
      some (answer :: answers, heap)

/-- What a call may answer when the trees are sets of strings, and the sets afterwards. -/
inductive Permitted (contents : Nat → Finset CString) : CbCall → CbAnswer → (Nat → Finset CString) → Prop where
  | inserted {tree : Nat} {str : CString} {alloc : Allocator CbBlock} (absent : str ∉ contents tree) :
      Permitted contents (.insert tree str alloc) (.status 0) (Function.update contents tree (insert str (contents tree)))
  | present {tree : Nat} {str : CString} {alloc : Allocator CbBlock} (member : str ∈ contents tree) :
      Permitted contents (.insert tree str alloc) (.status 1) contents
  | memory {tree : Nat} {str : CString} {alloc : Allocator CbBlock} (absent : str ∉ contents tree)
      (refused : ∃ heap size, alloc.answer heap size = none) :
      Permitted contents (.insert tree str alloc) (.status enomem) contents
  | deleted {tree : Nat} {str : CString} (member : str ∈ contents tree) :
      Permitted contents (.delete tree str) (.status 0) (Function.update contents tree ((contents tree).erase str))
  | missing {tree : Nat} {str : CString} (absent : str ∉ contents tree) :
      Permitted contents (.delete tree str) (.status 1) contents
  | contains (tree : Nat) (str : CString) :
      Permitted contents (.contains tree str) (.found (decide (str ∈ contents tree))) contents
  | cleared (tree : Nat) : Permitted contents (.clear tree) .cleared (Function.update contents tree ∅)
  | walked {tree : Nat} {str : CString} {strings : List CString} (sorted : strings.Pairwise StrcmpLt)
      (inside : ∀ x ∈ strings, x ∈ contents tree)
      (exact : (∃ y ∈ contents tree, str <+: y) → ∀ x, x ∈ strings ↔ x ∈ contents tree ∧ str <+: x) :
      Permitted contents (.walkPrefixed tree str) (.walked strings) contents

/-- A sequence of calls with their answers. -/
inductive PermittedRun : (Nat → Finset CString) → List (CbCall × CbAnswer) → (Nat → Finset CString) → Prop where
  | nil (contents : Nat → Finset CString) : PermittedRun contents [] contents
  | cons {contents contents' contents'' : Nat → Finset CString} {call : CbCall} {answer : CbAnswer}
      {rest : List (CbCall × CbAnswer)} (first : Permitted contents call answer contents')
      (later : PermittedRun contents' rest contents'') : PermittedRun contents ((call, answer) :: rest) contents''

/-- The trees hold these strings, and nothing else is in memory. -/
structure Accounts (heap : Heap CbBlock) (trees : Finset Nat) (contents : Nat → Finset CString)
    (below : Nat → Finset Nat) : Prop where
  shared : Shared heap trees fun tree => insert tree (below tree)
  holds : ∀ tree ∈ trees, ∃ set, HoldsTree heap tree set (below tree) ∧ ∀ x, x ∈ set ↔ x ∈ contents tree

section Accounts

variable {heap heap' : Heap CbBlock} {trees : Finset Nat} {contents : Nat → Finset CString} {below : Nat → Finset Nat}

theorem length_strings {set : CbSet} {strings : Finset CString} (same : ∀ x, x ∈ set ↔ x ∈ strings) :
    set.tree.strings.length = strings.card := by
  have nodup : set.tree.strings.Nodup := by
    obtain ⟨t, wf⟩ := set
    cases t with
    | none => exact List.nodup_nil
    | some t => exact CbNode.nodup_strings wf
  rw [← List.toFinset_card_of_nodup nodup]
  congr 1
  ext x
  rw [List.mem_toFinset, ← same, CbSet.mem_def]

/-- One tree has changed, within its own blocks. -/
theorem Accounts.change {tree : Nat} {set' : CbSet} {below' : Finset Nat} {strings : Finset CString}
    (accounts : Accounts heap trees contents below) (member : tree ∈ trees) (holds' : HoldsTree heap' tree set' below')
    (turns : Turns heap heap' (insert tree (below tree)) (insert tree below')) (same : ∀ x, x ∈ set' ↔ x ∈ strings) :
    Accounts heap' trees (Function.update contents tree strings) (Function.update below tree below') := by
  obtain ⟨shared, others⟩ := accounts.shared.step member turns
  constructor
  · have owns : (fun t => insert t (Function.update below tree below' t)) =
        Function.update (fun t => insert t (below t)) tree (insert tree below') := by
      funext t
      by_cases here : t = tree
      · subst here
        simp
      · simp [Function.update_of_ne here]
    rwa [owns]
  · intro t memberT
    by_cases here : t = tree
    · subst here
      rw [Function.update_self, Function.update_self]
      exact ⟨set', holds', same⟩
    · rw [Function.update_of_ne here, Function.update_of_ne here]
      obtain ⟨set, holds, same⟩ := accounts.holds t memberT
      exact ⟨set, holds.agrees (others t memberT here), same⟩

theorem Accounts.tree {tree rounds : Nat} (accounts : Accounts heap trees contents below) (member : tree ∈ trees)
    (enough : (contents tree).card ≤ rounds) : ∃ set, HoldsTree heap tree set (below tree) ∧
      (∀ x, x ∈ set ↔ x ∈ contents tree) ∧ set.tree.strings.length ≤ rounds := by
  obtain ⟨set, holds, same⟩ := accounts.holds tree member
  exact ⟨set, holds, same, by rwa [length_strings same]⟩

theorem Accounts.step {call : CbCall} {rounds : Nat} (accounts : Accounts heap trees contents below)
    (member : call.tree ∈ trees) (enough : (contents call.tree).card ≤ rounds) :
    ∃ answer heap' contents' below', cbStep rounds heap call = some (answer, heap') ∧
      Permitted contents call answer contents' ∧ Accounts heap' trees contents' below' := by
  cases call with
  | insert tree str alloc =>
    change tree ∈ trees at member
    obtain ⟨set, holds, same, enough'⟩ := accounts.tree member enough
    obtain ⟨heap', status, set', below', called, holds', turns, inserted⟩ := holds.insert_spec alloc str enough'
    cases inserted with
    | new absent =>
      refine ⟨.status 0, heap', _, Function.update below tree below', by simp [cbStep, called],
        .inserted (fun inside => absent ((same str).mpr inside)), ?_⟩
      apply accounts.change member holds' turns
      intro x
      rw [CbSet.mem_insert, same, Finset.mem_insert, or_comm]
    | present inside =>
      have kept := accounts.change member holds' turns same
      rw [Function.update_eq_self] at kept
      exact ⟨.status 1, heap', contents, _, by simp [cbStep, called], .present ((same str).mp inside), kept⟩
    | memory absent refused =>
      have kept := accounts.change member holds' turns same
      rw [Function.update_eq_self] at kept
      exact ⟨.status enomem, heap', contents, _, by simp [cbStep, called],
        .memory (fun inside => absent ((same str).mpr inside)) refused, kept⟩
  | delete tree str =>
    change tree ∈ trees at member
    obtain ⟨set, holds, same, enough'⟩ := accounts.tree member enough
    obtain ⟨heap', status, set', below', called, holds', turns, deleted⟩ := holds.delete_spec str enough'
    cases deleted with
    | removed inside =>
      refine ⟨.status 0, heap', _, Function.update below tree below', by simp [cbStep, called],
        .deleted ((same str).mp inside), ?_⟩
      apply accounts.change member holds' turns
      intro x
      rw [CbSet.mem_delete, same, Finset.mem_erase, and_comm]
    | missing absent =>
      have kept := accounts.change member holds' turns same
      rw [Function.update_eq_self] at kept
      exact ⟨.status 1, heap', contents, _, by simp [cbStep, called], .missing (fun inside => absent ((same str).mpr inside)),
        kept⟩
  | contains tree str =>
    change tree ∈ trees at member
    obtain ⟨set, holds, same, enough'⟩ := accounts.tree member enough
    refine ⟨_, heap, contents, below, ?_, .contains tree str, accounts⟩
    simp only [cbStep, holds.contains_spec enough' str, Option.map_some]
    simp only [decide_eq_decide.mpr (same str)]
  | clear tree =>
    change tree ∈ trees at member
    obtain ⟨set, holds, same, enough'⟩ := accounts.tree member enough
    obtain ⟨heap', called, holds', turns⟩ := holds.clear_spec enough'
    exact ⟨.cleared, heap', _, _, by simp [cbStep, called], .cleared tree, accounts.change member holds' turns (by simp)⟩
  | walkPrefixed tree str =>
    change tree ∈ trees at member
    obtain ⟨set, holds, same, enough'⟩ := accounts.tree member enough
    have called := holds.walkPrefixed_spec enough' str collect []
    rw [visit_collect, List.nil_append] at called
    refine ⟨.walked (cbTreeWalkPrefixed set.tree str), heap, contents, below, by simp [cbStep, called], ?_, accounts⟩
    apply Permitted.walked (set.sorted_walkPrefixed str)
    · intro x visited
      exact (same x).mp (CbSet.mem_of_mem_walkPrefixed visited)
    · rintro ⟨y, present, pre⟩ x
      rw [CbSet.mem_walkPrefixed ((same y).mpr present) pre x, same x]

/-- Every call adds at most one string. -/
theorem Permitted.card {call : CbCall} {answer : CbAnswer} {contents' : Nat → Finset CString}
    (permitted : Permitted contents call answer contents') (tree : Nat) :
    (contents' tree).card ≤ (contents tree).card + 1 := by
  cases permitted with
  | @inserted changed str alloc absent =>
    by_cases here : tree = changed
    · subst here
      rw [Function.update_self]
      exact Finset.card_insert_le _ _
    · rw [Function.update_of_ne here]
      exact Nat.le_succ _
  | @deleted changed str member =>
    by_cases here : tree = changed
    · subst here
      rw [Function.update_self]
      exact Nat.le_succ_of_le (Finset.card_erase_le ..)
    · rw [Function.update_of_ne here]
      exact Nat.le_succ _
  | cleared changed =>
    by_cases here : tree = changed
    · subst here
      simp
    · rw [Function.update_of_ne here]
      exact Nat.le_succ _
  | present | memory | missing | contains | walked => exact Nat.le_succ _

theorem Accounts.run {calls : List CbCall} {rounds : Nat} (accounts : Accounts heap trees contents below)
    (members : ∀ call ∈ calls, call.tree ∈ trees) (enough : ∀ tree, (contents tree).card + calls.length ≤ rounds) :
    ∃ answers heap' contents' below', cbRun rounds heap calls = some (answers, heap') ∧
      PermittedRun contents (calls.zip answers) contents' ∧ Accounts heap' trees contents' below' := by
  induction calls generalizing heap contents below with
  | nil => exact ⟨[], heap, contents, below, rfl, .nil contents, accounts⟩
  | cons call calls ih =>
    have fits := enough call.tree
    rw [List.length_cons] at fits
    obtain ⟨answer, heap1, contents1, below1, stepped, permitted, accounts1⟩ :=
      accounts.step (members call (List.mem_cons_self ..)) (Nat.le_trans (Nat.le_add_right _ _) fits)
    have enough1 : ∀ tree, (contents1 tree).card + calls.length ≤ rounds := by
      intro tree
      have before := enough tree
      have grown := permitted.card tree
      rw [List.length_cons] at before
      omega
    obtain ⟨answers, heap2, contents2, below2, ran, later, accounts2⟩ :=
      ih accounts1 (fun call member => members call (List.mem_cons_of_mem _ member)) enough1
    exact ⟨answer :: answers, heap2, contents2, below2, by simp [cbRun, stepped, ran], .cons permitted later, accounts2⟩

end Accounts

/-! ## Main result -/

end Rsvndump
