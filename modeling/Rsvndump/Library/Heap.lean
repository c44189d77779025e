import Mathlib.Data.Finset.Union

/-! Blocks of memory by address.

A heap says which addresses are the start of an allocated block, and what the
block holds. Writing or releasing anything else is a fault. A structure in
memory is described together with the set of addresses it owns, so that what
happens outside of this set cannot change it.
-/

set_option autoImplicit false

namespace Library

abbrev Heap (B : Type) := Nat → Option B

variable {B : Type}

namespace Heap

/-- A new block. -/
abbrev put (heap : Heap B) (a : Nat) (block : B) : Heap B := Function.update heap a (some block)

def write (heap : Heap B) (a : Nat) (block : B) : Option (Heap B) :=
  if (heap a).isSome then some (heap.put a block) else none

def free (heap : Heap B) (a : Nat) : Option (Heap B) :=
  if (heap a).isSome then some (Function.update heap a none) else none

theorem write_of_live {heap : Heap B} {a : Nat} {old : B} (live : heap a = some old) (block : B) :
    heap.write a block = some (heap.put a block) := by
  simp [write, live]

theorem free_of_live {heap : Heap B} {a : Nat} {old : B} (live : heap a = some old) :
    heap.free a = some (Function.update heap a none) := by
  simp [free, live]

/-- A new block is not one that is there. -/
theorem put_of_live {heap : Heap B} {a b : Nat} (unused : heap a = none) (block : B) (live : heap b ≠ none) :
    heap.put a block b = heap b := by
  apply Function.update_of_ne
  rintro rfl
  exact live unused

/-- The blocks of a set are the same in both heaps. -/
def Agrees (heap heap' : Heap B) (own : Finset Nat) : Prop := ∀ a ∈ own, heap' a = heap a

theorem Agrees.refl (heap : Heap B) (own : Finset Nat) : Agrees heap heap own := fun _ _ => rfl

theorem Agrees.trans {heap heap' heap'' : Heap B} {own : Finset Nat} (first : Agrees heap heap' own)
    (second : Agrees heap' heap'' own) : Agrees heap heap'' own :=
  fun a member => (second a member).trans (first a member)

theorem Agrees.mono {heap heap' : Heap B} {own own' : Finset Nat} (agrees : Agrees heap heap' own)
    (fewer : own' ⊆ own) : Agrees heap heap' own' :=
  fun a member => agrees a (fewer member)

/-- A step that turns the blocks `own` into the blocks `own'`: what it adds was
not allocated before, what it gives up is released, and the rest of the heap
stays as it is. -/
structure Turns (heap heap' : Heap B) (own own' : Finset Nat) : Prop where
  elsewhere : ∀ a, a ∉ own → a ∉ own' → heap' a = heap a
  added : ∀ a ∈ own', a ∉ own → heap a = none
  held : ∀ a ∈ own', heap' a ≠ none
  freed : ∀ a ∈ own, a ∉ own' → heap' a = none

section Turns

variable {heap heap' heap'' : Heap B} {own own' own'' rest : Finset Nat}

theorem Turns.refl (held : ∀ a ∈ own, heap a ≠ none) : Turns heap heap own own where
  elsewhere _ _ _ := rfl
  added _ member outside := absurd member outside
  held := held
  freed _ member outside := absurd member outside

theorem Turns.trans (first : Turns heap heap' own own') (second : Turns heap' heap'' own' own'') :
    Turns heap heap'' own own'' where
  elsewhere a outside outside' := by
    by_cases between : a ∈ own'
    · rw [second.freed a between outside', first.added a between outside]
    · rw [second.elsewhere a between outside', first.elsewhere a outside between]
  added a member outside := by
    by_cases between : a ∈ own'
    · exact first.added a between outside
    · rw [← first.elsewhere a outside between, second.added a member between]
  held := second.held
  freed a member outside := by
    by_cases between : a ∈ own'
    · exact second.freed a between outside
    · rw [second.elsewhere a between outside, first.freed a member between]

/-- Whatever else is in memory neither changes nor meets the new blocks. -/
theorem Turns.agrees (turns : Turns heap heap' own own') (held : ∀ a ∈ rest, heap a ≠ none)
    (apart : Disjoint own rest) : Agrees heap heap' rest ∧ Disjoint own' rest := by
  have outside : ∀ a ∈ rest, a ∉ own ∧ a ∉ own' := by
    intro a member
    have notOwn : a ∉ own := fun other => Finset.disjoint_left.mp apart other member
    exact ⟨notOwn, fun added => held a member (turns.added a added notOwn)⟩
  constructor
  · intro a member
    exact turns.elsewhere a (outside a member).1 (outside a member).2
  · apply Finset.disjoint_right.mpr
    exact fun a member => (outside a member).2

/-- The step done beside blocks that it does not touch. -/
theorem Turns.frame (turns : Turns heap heap' own own') (held : ∀ a ∈ rest, heap a ≠ none)
    (apart : Disjoint own rest) : Turns heap heap' (own ∪ rest) (own' ∪ rest) := by
  obtain ⟨agrees, apart'⟩ := turns.agrees held apart
  constructor
  · intro a outside outside'
    rw [Finset.notMem_union] at outside outside'
    exact turns.elsewhere a outside.1 outside'.1
  · intro a member outside
    rw [Finset.notMem_union] at outside
    rcases Finset.mem_union.mp member with member | member
    · exact turns.added a member outside.1
    · exact absurd member outside.2
  · intro a member
    rcases Finset.mem_union.mp member with member | member
    · exact turns.held a member
    · rw [agrees a member]
      exact held a member
  · intro a member outside
    rw [Finset.notMem_union] at outside
    rcases Finset.mem_union.mp member with member | member
    · exact turns.freed a member outside.1
    · exact absurd member outside.2

/-- Steps on disjoint blocks, one after the other. -/
theorem Turns.both {other other' : Finset Nat} (first : Turns heap heap' own own') (second : Turns heap' heap'' other other')
    (held : ∀ a ∈ other, heap a ≠ none) (apart : Disjoint own other) : Turns heap heap'' (own ∪ other) (own' ∪ other') := by
  have apart' := (first.agrees held apart).2
  have later := second.frame first.held apart'.symm
  rw [Finset.union_comm other own', Finset.union_comm other' own'] at later
  exact (first.frame held apart).trans later

theorem turns_write (heap : Heap B) (a : Nat) (block : B) :
    Turns heap (heap.put a block) {a} {a} where
  elsewhere b outside _ := Function.update_of_ne (by simpa using outside) _ _
  added b member outside := absurd member outside
  held b member := by
    rw [Finset.mem_singleton.mp member]
    simp
  freed b member outside := absurd member outside

theorem turns_free (heap : Heap B) (a : Nat) : Turns heap (Function.update heap a none) {a} ∅ where
  elsewhere b outside _ := Function.update_of_ne (by simpa using outside) _ _
  added b member _ := absurd member (Finset.notMem_empty b)
  held b member := absurd member (Finset.notMem_empty b)
  freed b member _ := by
    rw [Finset.mem_singleton.mp member]
    simp

theorem turns_new {a : Nat} (unused : heap a = none) (block : B) :
    Turns heap (heap.put a block) ∅ {a} where
  elsewhere b _ outside := Function.update_of_ne (by simpa using outside) _ _
  added b member _ := by rwa [Finset.mem_singleton.mp member]
  held b member := by
    rw [Finset.mem_singleton.mp member]
    simp
  freed b member _ := absurd member (Finset.notMem_empty b)

end Turns

/-- Structures that own disjoint sets of blocks, and that nothing else is allocated. -/
structure Shared {I : Type} (heap : Heap B) (ids : Finset I) (own : I → Finset Nat) : Prop where
  apart : ∀ i ∈ ids, ∀ j ∈ ids, i ≠ j → Disjoint (own i) (own j)
  live : ∀ a, heap a ≠ none ↔ ∃ i ∈ ids, a ∈ own i

/-- Only finitely many blocks are allocated. -/
def Bounded (heap : Heap B) : Prop := ∃ own : Finset Nat, ∀ a, heap a ≠ none → a ∈ own

theorem Bounded.update {heap : Heap B} (bounded : heap.Bounded) (a : Nat) (block : Option B) :
    Bounded (Function.update heap a block) := by
  obtain ⟨own, covers⟩ := bounded
  refine ⟨insert a own, fun b live => ?_⟩
  by_cases same : b = a
  · exact same ▸ Finset.mem_insert_self _ _
  · rw [Function.update_of_ne same] at live
    exact Finset.mem_insert_of_mem (covers b live)

theorem Shared.bounded {I : Type} {heap : Heap B} {ids : Finset I} {own : I → Finset Nat} (shared : Shared heap ids own) :
    heap.Bounded := by
  refine ⟨ids.biUnion own, fun a live => ?_⟩
  obtain ⟨i, member, inside⟩ := (shared.live a).mp live
  exact Finset.mem_biUnion.mpr ⟨i, member, inside⟩

/-- A step of one structure leaves the others alone and the memory accounted for. -/
theorem Shared.step {I : Type} [DecidableEq I] {heap heap' : Heap B} {ids : Finset I} {own : I → Finset Nat}
    {own' : Finset Nat} {i : I} (shared : Shared heap ids own) (member : i ∈ ids)
    (turns : Turns heap heap' (own i) own') : Shared heap' ids (Function.update own i own') ∧
      ∀ j ∈ ids, j ≠ i → Agrees heap heap' (own j) := by
  have others : ∀ j ∈ ids, j ≠ i → Agrees heap heap' (own j) ∧ Disjoint own' (own j) := by
    intro j memberJ other
    apply turns.agrees
    · exact fun a inside => (shared.live a).mpr ⟨j, memberJ, inside⟩
    · exact shared.apart i member j memberJ (Ne.symm other)
  refine ⟨⟨?_, ?_⟩, fun j memberJ other => (others j memberJ other).1⟩
  · intro j memberJ k memberK different
    by_cases first : j = i
    · subst first
      rw [Function.update_self, Function.update_of_ne (Ne.symm different)]
      exact (others k memberK (Ne.symm different)).2
    · rw [Function.update_of_ne first]
      by_cases second : k = i
      · subst second
        rw [Function.update_self]
        exact (others j memberJ first).2.symm
      · rw [Function.update_of_ne second]
        exact shared.apart j memberJ k memberK different
  · intro a
    constructor
    · intro live
      by_cases added : a ∈ own'
      · exact ⟨i, member, by rwa [Function.update_self]⟩
      · have outside : a ∉ own i := fun inside => live (turns.freed a inside added)
        rw [turns.elsewhere a outside added] at live
        obtain ⟨j, memberJ, inside⟩ := (shared.live a).mp live
        have other : j ≠ i := by
          rintro rfl
          exact outside inside
        exact ⟨j, memberJ, by rwa [Function.update_of_ne other]⟩
    · rintro ⟨j, memberJ, inside⟩
      by_cases same : j = i
      · rw [same, Function.update_self] at inside
        exact turns.held a inside
      · rw [Function.update_of_ne same] at inside
        rw [(others j memberJ same).1 a inside]
        exact (shared.live a).mpr ⟨j, memberJ, inside⟩

/-- A structure that owns nothing yet. -/
theorem Shared.add {I : Type} [DecidableEq I] {heap : Heap B} {ids : Finset I} {own : I → Finset Nat} {i : I}
    (shared : Shared heap ids own) (outside : i ∉ ids) : Shared heap (insert i ids) (Function.update own i ∅) where
  apart j memberJ k memberK different := by
    by_cases first : j = i
    · rw [first, Function.update_self]
      exact Finset.disjoint_empty_left _
    · by_cases second : k = i
      · rw [second, Function.update_self]
        exact Finset.disjoint_empty_right _
      · rw [Function.update_of_ne first, Function.update_of_ne second]
        exact shared.apart j ((Finset.mem_insert.mp memberJ).resolve_left first) k
          ((Finset.mem_insert.mp memberK).resolve_left second) different
  live a := by
    rw [shared.live]
    constructor
    · rintro ⟨j, member, inside⟩
      have other : j ≠ i := by
        rintro rfl
        exact outside member
      exact ⟨j, Finset.mem_insert_of_mem member, by rwa [Function.update_of_ne other]⟩
    · rintro ⟨j, member, inside⟩
      by_cases same : j = i
      · rw [same, Function.update_self] at inside
        exact absurd inside (Finset.notMem_empty a)
      · rw [Function.update_of_ne same] at inside
        exact ⟨j, (Finset.mem_insert.mp member).resolve_left same, inside⟩

/-- A structure that has given up all its blocks. -/
theorem Shared.drop {I : Type} [DecidableEq I] {heap : Heap B} {ids : Finset I} {own : I → Finset Nat} {i : I}
    (shared : Shared heap ids own) (empty : own i = ∅) : Shared heap (ids.erase i) own where
  apart j memberJ k memberK different :=
    shared.apart j (Finset.mem_of_mem_erase memberJ) k (Finset.mem_of_mem_erase memberK) different
  live a := by
    rw [shared.live]
    constructor
    · rintro ⟨j, member, inside⟩
      refine ⟨j, Finset.mem_erase.mpr ⟨?_, member⟩, inside⟩
      rintro rfl
      rw [empty] at inside
      exact Finset.notMem_empty a inside
    · rintro ⟨j, member, inside⟩
      exact ⟨j, Finset.mem_of_mem_erase member, inside⟩

end Heap

/-- What an allocation function answers to a request for a number of bytes: the
null pointer, or an aligned address at which nothing is allocated. -/
structure Allocator (B : Type) where
  answer : Heap B → Nat → Option Nat
  unused : ∀ {heap size a}, answer heap size = some a → heap a = none
  aligned : ∀ {heap size a}, answer heap size = some a → a ≠ 0 ∧ a % 2 = 0

/-- Memory that does not run out. -/
def Allocator.Succeeds (alloc : Allocator B) : Prop := ∀ heap size, heap.Bounded → alloc.answer heap size ≠ none

end Library
