import Mathlib.Data.Finset.Image
import Rsvndump.Rhash.Storage

/-! The tables of rhash.c are maps whose memory is theirs alone. -/

set_option autoImplicit false

namespace Rsvndump

open Library Library.Heap

variable {heap heap' : Heap RhBlock}

/-! ## Reading -/

theorem readKey_congr {p : Nat} (same : heap' p = heap p) (len : Option Nat) : readKey heap' p len = readKey heap p len := by
  cases len <;> simp only [readKey, loadBytes, same]

theorem readVal_congr {p : Nat} (same : heap' p = heap p) (len : Option Nat) : readVal heap' p len = readVal heap p len := by
  cases len <;> simp only [readVal, readKey_congr same]

theorem untilZero_stored {bytes text : Bytes} (found : untilZero bytes = some text) :
    untilZero (text ++ [0]) = some text := by
  induction bytes generalizing text with
  | nil => cases found
  | cons b bytes ih =>
    by_cases zero : b = 0
    · obtain rfl : [] = text := by simpa [untilZero, zero] using found
      rfl
    · simp only [untilZero, zero, if_false, Option.map_eq_some_iff] at found
      obtain ⟨tail, rest, rfl⟩ := found
      simp [untilZero, zero, ih rest]

/-- The copy of a key is read as the key. -/
theorem readKey_copy {p a : Nat} {len : Option Nat} {text copied : Bytes} (reads : readKey heap p len = some text)
    (copies : readVal heap p len = some copied) (block : heap' a = some (.data copied)) :
    readKey heap' a len = some text ∧ readKey heap' a (some text.length) = some text := by
  cases len with
  | none =>
    obtain rfl : text ++ [0] = copied := by simpa [readVal, reads] using copies
    obtain ⟨bytes, _, found⟩ : ∃ bytes, loadBytes heap p = some bytes ∧ untilZero bytes = some text := by
      simpa [readKey, Option.bind_eq_some_iff] using reads
    exact ⟨by simp [readKey, loadBytes, block, untilZero_stored found], by simp [readKey, loadBytes, block]⟩
  | some len =>
    obtain rfl : text = copied := by simpa [readVal, reads] using copies
    have long : text.length = len := by
      simp only [readKey, Option.bind_eq_bind, Option.bind_eq_some_iff] at reads
      obtain ⟨bytes, _, taken⟩ := reads
      split at taken
      · cases taken
        rw [List.length_take]
        omega
      · cases taken
    simp [readKey, loadBytes, block, ← long]

/-! ## Entries -/

/-- An entry of the table with its key, its value and the three blocks it owns. -/
structure EntryAt (heap : Heap RhBlock) (e : AprEntry) (key value : Bytes) (own : Finset Nat) : Prop where
  chunk : ∃ v, heap e.val = some (.entry e.key v) ∧ heap v = some (.data value) ∧ own = {e.val, e.key, v} ∧
    e.val ≠ v ∧ e.key ≠ v ∧ e.val ≠ e.key
  stored : readKey heap e.key (some e.klen) = some key
  length : e.klen = key.length

section EntryAt

variable {e : AprEntry} {key value : Bytes} {own : Finset Nat}

theorem EntryAt.keyHeld (entry : EntryAt heap e key value own) : heap e.key ≠ none := by
  have stored := entry.stored
  intro missing
  simp [readKey, loadBytes, missing] at stored

theorem EntryAt.agrees (entry : EntryAt heap e key value own) (agrees : Agrees heap heap' own) :
    EntryAt heap' e key value own := by
  obtain ⟨v, block, data, rfl, apart⟩ := entry.chunk
  refine ⟨⟨v, (agrees _ (by simp)).trans block, (agrees _ (by simp)).trans data, rfl, apart⟩, ?_, entry.length⟩
  rw [readKey_congr (agrees e.key (by simp)), entry.stored]

theorem EntryAt.matches (entry : EntryAt heap e key value own) (text : Bytes) :
    aprMatches heap text e = some (decide (key = text)) := by
  unfold aprMatches
  split
  · rw [entry.stored]
    rfl
  · rename_i different
    have other : key ≠ text := by
      rintro rfl
      exact different entry.length
    simp [other]

theorem entryFree_spec (entry : EntryAt heap e key value own) :
    ∃ heap', entryFree heap e.val = some heap' ∧ Turns heap heap' own ∅ := by
  obtain ⟨v, block, data, rfl, apart, apart', apart''⟩ := entry.chunk
  obtain ⟨old, found⟩ := Option.ne_none_iff_exists'.mp entry.keyHeld
  let heap1 : Heap RhBlock := Function.update heap e.key none
  let heap2 : Heap RhBlock := Function.update heap1 v none
  have data1 : heap1 v = some (.data value) := (Function.update_of_ne (Ne.symm apart') _ _).trans data
  have block2 : heap2 e.val = some (.entry e.key v) :=
    (Function.update_of_ne apart _ _).trans ((Function.update_of_ne apart'' _ _).trans block)
  refine ⟨Function.update heap2 e.val none, ?_, ?_⟩
  · have first : heap.free e.key = some heap1 := Heap.free_of_live found
    have second : heap1.free v = some heap2 := Heap.free_of_live data1
    have loads : loadEntry heap e.val = some (e.key, v) := by simp [loadEntry, block]
    simp only [entryFree, loads, first, second, Option.bind_eq_bind, Option.bind_some]
    exact Heap.free_of_live block2
  · have two := (turns_free heap e.key).both (turns_free heap1 v) (by simp [data]) (by simpa using apart')
    have three := two.both (turns_free heap2 e.val) (by simp [block]) (by simpa using ⟨apart'', apart⟩)
    rw [Finset.union_comm _ {e.val}, ← Finset.insert_eq, ← Finset.insert_eq] at three
    exact three

end EntryAt

/-! ## Tables -/

/-- The entries of a table in its order, one for each key. -/
abbrev Entries (heap : Heap RhBlock) (values : Bytes → Bytes) (own : Bytes → Finset Nat) :
    List AprEntry → List Bytes → Prop :=
  List.Forall₂ fun e key => EntryAt heap e key (values key) (own key)

section Entries

variable {values : Bytes → Bytes} {own : Bytes → Finset Nat} {table : List AprEntry} {keys : List Bytes} {text : Bytes}

theorem aprFind_absent (entries : Entries heap values own table keys) (absent : text ∉ keys) :
    aprFind heap text table = some none := by
  induction entries with
  | nil => rfl
  | @cons e key table keys entry rest ih =>
    simp only [List.mem_cons, not_or] at absent
    simp [aprFind, entry.matches, Ne.symm absent.1, ih absent.2]

theorem aprFind_present (entries : Entries heap values own table keys) (member : text ∈ keys) :
    ∃ e, aprFind heap text table = some (some e) ∧ EntryAt heap e text (values text) (own text) := by
  induction entries with
  | nil => cases member
  | @cons e key table keys entry rest ih =>
    by_cases here : key = text
    · subst here
      exact ⟨e, by simp [aprFind, entry.matches], entry⟩
    · have later : text ∈ keys := (List.mem_cons.mp member).resolve_left (Ne.symm here)
      obtain ⟨e', found, at'⟩ := ih later
      exact ⟨e', by simp [aprFind, entry.matches, here, found], at'⟩

theorem aprUpdate_add (entries : Entries heap values own table keys) (absent : text ∉ keys) (key val : Nat) :
    aprUpdate heap text key (some val) table = some (table ++ [⟨key, text.length, val⟩]) := by
  induction entries with
  | nil => rfl
  | @cons e key' table keys entry rest ih =>
    simp only [List.mem_cons, not_or] at absent
    simp [aprUpdate, entry.matches, Ne.symm absent.1, ih absent.2]

theorem aprUpdate_remove (entries : Entries heap values own table keys) (member : text ∈ keys) (key : Nat) :
    ∃ table', aprUpdate heap text key none table = some table' ∧ Entries heap values own table' (keys.erase text) := by
  induction entries with
  | nil => cases member
  | @cons e key' table keys entry rest ih =>
    by_cases here : key' = text
    · subst here
      rw [List.erase_cons_head]
      exact ⟨table, by simp [aprUpdate, entry.matches], rest⟩
    · have later : text ∈ keys := (List.mem_cons.mp member).resolve_left (Ne.symm here)
      obtain ⟨table', removed, rest'⟩ := ih later
      rw [List.erase_cons_tail (by simpa using here)]
      exact ⟨e :: table', by simp [aprUpdate, entry.matches, here, removed], .cons entry rest'⟩

/-- The entries of other keys survive a change of memory outside of them, with new values elsewhere. -/
theorem Entries.mono {values' : Bytes → Bytes} {own' : Bytes → Finset Nat} (entries : Entries heap values own table keys)
    (kept : ∀ key ∈ keys, Agrees heap heap' (own key) ∧ values' key = values key ∧ own' key = own key) :
    Entries heap' values' own' table keys := by
  induction entries with
  | nil => exact .nil
  | @cons e key table keys entry rest ih =>
    obtain ⟨agrees, sameValue, sameOwn⟩ := kept key (List.mem_cons_self ..)
    refine .cons ?_ (ih fun key member => kept key (List.mem_cons_of_mem _ member))
    rw [sameValue, sameOwn]
    exact entry.agrees agrees

/-- A key has a new value, and its entry is still the one that is found. -/
theorem Entries.replace {e : AprEntry} {value : Bytes} {own' : Finset Nat} (entries : Entries heap values own table keys)
    (nodup : keys.Nodup) (found : aprFind heap text table = some (some e)) (entry' : EntryAt heap' e text value own')
    (others : ∀ key ∈ keys, key ≠ text → Agrees heap heap' (own key)) :
    Entries heap' (Function.update values text value) (Function.update own text own') table keys := by
  induction entries with
  | nil => exact .nil
  | @cons e' key table keys entry rest ih =>
    obtain ⟨outside, nodup'⟩ := List.nodup_cons.mp nodup
    by_cases here : key = text
    · subst here
      obtain rfl : e' = e := by simpa [aprFind, entry.matches] using found
      refine .cons (by simpa using entry') (Entries.mono rest ?_)
      intro other member
      have different : other ≠ key := by
        rintro rfl
        exact outside member
      exact ⟨others other (List.mem_cons_of_mem _ member) different, by simp [different], by simp [different]⟩
    · refine .cons ?_ (ih nodup' (by simpa [aprFind, entry.matches, here] using found) fun other member =>
        others other (List.mem_cons_of_mem _ member))
      rw [Function.update_of_ne here, Function.update_of_ne here]
      exact entry.agrees (others key (List.mem_cons_self ..) here)

end Entries

/-- The blocks of each key, and those that belong to the rest of the program. -/
def ownedBy (own : Bytes → Finset Nat) (rest : Finset Nat) : Option Bytes → Finset Nat
  | none => rest
  | some key => own key

def owners (keys : List Bytes) : Finset (Option Bytes) := insert none (keys.toFinset.image some)

theorem mem_owners {keys : List Bytes} {key : Bytes} : some key ∈ owners keys ↔ key ∈ keys := by
  simp [owners]

theorem ownedBy_update (own : Bytes → Finset Nat) (rest : Finset Nat) (key : Bytes) (blocks : Finset Nat) :
    Function.update (ownedBy own rest) (some key) blocks = ownedBy (Function.update own key blocks) rest := by
  funext i
  cases i with
  | none => rfl
  | some other =>
    by_cases same : other = key
    · subst same
      simp [ownedBy]
    · simp [ownedBy, same]

/-- A table as a map, which shares memory with the rest of the program. -/
structure OwnsTable (heap : Heap RhBlock) (table : List AprEntry) (keys : List Bytes) (values : Bytes → Bytes)
    (own : Bytes → Finset Nat) (rest : Finset Nat) : Prop where
  entries : Entries heap values own table keys
  nodup : keys.Nodup
  shared : Shared heap (owners keys) (ownedBy own rest)

/-- What belongs to the rest of the program or to other keys is as before. -/
def Untouched (heap heap' : Heap RhBlock) (keys : List Bytes) (own : Bytes → Finset Nat) (rest : Finset Nat)
    (text : Bytes) : Prop :=
  ∀ i ∈ owners keys, i ≠ some text → Agrees heap heap' (ownedBy own rest i)

section OwnsTable

variable {table : List AprEntry} {keys : List Bytes} {values : Bytes → Bytes} {own : Bytes → Finset Nat} {rest : Finset Nat}
  {key : Nat} {klen : Option Nat} {text : Bytes}

/-- What a table is after the blocks of one key have been replaced. -/
theorem OwnsTable.change {table' : List AprEntry} {own' : Finset Nat} {value : Bytes}
    (owns : OwnsTable heap table keys values own rest) (member : text ∈ keys) (turns : Turns heap heap' (own text) own')
    (entries' : (∀ key ∈ keys, key ≠ text → Agrees heap heap' (own key)) →
      Entries heap' (Function.update values text value) (Function.update own text own') table' keys) :
    OwnsTable heap' table' keys (Function.update values text value) (Function.update own text own') rest ∧
      Untouched heap heap' keys own rest text := by
  obtain ⟨shared, others⟩ := owns.shared.step (mem_owners.mpr member) turns
  refine ⟨⟨entries' ?_, owns.nodup, ?_⟩, others⟩
  · intro key inside different
    exact others (some key) (mem_owners.mpr inside) (by simpa using different)
  · rwa [ownedBy_update] at shared

theorem OwnsTable.get_absent (owns : OwnsTable heap table keys values own rest) (reads : readKey heap key klen = some text)
    (absent : text ∉ keys) : rhashGet heap table key klen = some none := by
  simp [rhashGet, aprHashGet, reads, aprFind_absent owns.entries absent]

theorem OwnsTable.get_present (owns : OwnsTable heap table keys values own rest) (reads : readKey heap key klen = some text)
    (member : text ∈ keys) : ∃ e v, aprHashGet heap table key klen = some (some e) ∧ loadEntry heap e = some v ∧
      rhashGet heap table key klen = some (some v.2) ∧ loadBytes heap v.2 = some (values text) := by
  obtain ⟨e, found, entry⟩ := aprFind_present owns.entries member
  obtain ⟨v, block, data, _⟩ := entry.chunk
  have get : aprHashGet heap table key klen = some (some e.val) := by simp [aprHashGet, reads, found]
  have loads : loadEntry heap e.val = some (e.key, v) := by simp [loadEntry, block]
  exact ⟨e.val, (e.key, v), get, loads, by simp [rhashGet, get, loads], by simp [loadBytes, data]⟩

theorem duplicate_spec {alloc : Allocator RhBlock} {p : Nat} {len : Option Nat} {bytes : Bytes}
    (reads : readVal heap p len = some bytes) (memory : alloc.Succeeds) (bounded : heap.Bounded) :
    ∃ a, alloc.answer heap bytes.length = some a ∧ heap a = none ∧
      duplicate alloc heap p len = some (heap.put a (.data bytes), a) := by
  obtain ⟨a, answered⟩ := Option.ne_none_iff_exists'.mp (memory heap bytes.length bounded)
  exact ⟨a, answered, alloc.unused answered, by simp [duplicate, reads, answered]⟩

theorem readVal_held {p : Nat} {len : Option Nat} {bytes : Bytes} (reads : readVal heap p len = some bytes) :
    heap p ≠ none := by
  intro missing
  cases len <;> simp [readVal, readKey, loadBytes, missing] at reads

theorem owners_erase {keys : List Bytes} (nodup : keys.Nodup) (text : Bytes) :
    (owners keys).erase (some text) = owners (keys.erase text) := by
  ext i
  cases i with
  | none => simp [owners]
  | some other => simp [mem_owners, nodup.mem_erase_iff]

/-- The entry of one key has been released. -/
theorem Shared.release (shared : Shared heap (owners keys) (ownedBy own rest)) (nodup : keys.Nodup) (member : text ∈ keys)
    (turns : Turns heap heap' (own text) ∅) :
    Shared heap' (owners (keys.erase text)) (ownedBy (Function.update own text ∅) rest) ∧
      Untouched heap heap' keys own rest text := by
  obtain ⟨shared', others⟩ := shared.step (mem_owners.mpr member) turns
  rw [ownedBy_update] at shared'
  have dropped := shared'.drop (show ownedBy (Function.update own text ∅) rest (some text) = ∅ by simp [ownedBy])
  rw [owners_erase nodup] at dropped
  exact ⟨dropped, others⟩

/-- The entry of a new key has been allocated. -/
theorem Shared.acquire {own' : Finset Nat} (shared : Shared heap (owners keys) (ownedBy own rest)) (absent : text ∉ keys)
    (turns : Turns heap heap' ∅ own') :
    Shared heap' (owners (keys ++ [text])) (ownedBy (Function.update own text own') rest) ∧
      Untouched heap heap' keys own rest text := by
  have added := shared.add (fun inside => absent (mem_owners.mp inside))
  obtain ⟨shared', others⟩ := added.step (Finset.mem_insert_self _ _) (by simpa using turns)
  constructor
  · rw [Function.update_idem, ownedBy_update] at shared'
    have ids : owners (keys ++ [text]) = insert (some text) (owners keys) := by
      ext i
      cases i with
      | none => simp [owners]
      | some other => simp [mem_owners, or_comm]
    rwa [ids]
  · intro i inside different
    have agrees := others i (Finset.mem_insert_of_mem inside) different
    rwa [Function.update_of_ne different] at agrees

theorem Untouched.other {other : Bytes} (untouched : Untouched heap heap' keys own rest text) (member : other ∈ keys)
    (different : other ≠ text) : Agrees heap heap' (own other) :=
  untouched (some other) (mem_owners.mpr member) (by simpa using different)

theorem Untouched.foreign (untouched : Untouched heap heap' keys own rest text) : Agrees heap heap' rest :=
  untouched none (by simp [owners]) (by simp)

theorem OwnsTable.delete (alloc : Allocator RhBlock) (owns : OwnsTable heap table keys values own rest)
    (reads : readKey heap key klen = some text) (member : text ∈ keys) (vlen : Option Nat) :
    ∃ heap' table', rhashSet alloc heap table key klen none vlen = some (heap', table') ∧
      OwnsTable heap' table' (keys.erase text) values (Function.update own text ∅) rest ∧
      Untouched heap heap' keys own rest text := by
  obtain ⟨e, found, entry⟩ := aprFind_present owns.entries member
  have get : aprHashGet heap table key klen = some (some e.val) := by simp [aprHashGet, reads, found]
  obtain ⟨table', removed, entries'⟩ := aprUpdate_remove owns.entries member key
  obtain ⟨heap', released, turns⟩ := entryFree_spec entry
  obtain ⟨shared, untouched⟩ := Shared.release owns.shared owns.nodup member turns
  refine ⟨heap', table', ?_, ⟨?_, owns.nodup.erase text, shared⟩, untouched⟩
  · simp [rhashSet, get, aprHashSet, reads, removed, released]
  · apply Entries.mono entries'
    intro other inside
    obtain ⟨different, present⟩ := owns.nodup.mem_erase_iff.mp inside
    exact ⟨untouched.other present different, rfl, Function.update_of_ne different _ _⟩

/-- All entries are released, in any order. -/
theorem release_all {order : List AprEntry} (entries : Entries heap values own order keys) (nodup : keys.Nodup)
    (shared : Shared heap (owners keys) (ownedBy own rest)) :
    ∃ heap', (order.map AprEntry.val).foldlM entryFree heap = some heap' ∧ Agrees heap heap' rest ∧
      Shared heap' (owners []) (ownedBy own rest) := by
  induction order generalizing heap keys own with
  | nil =>
    cases entries
    exact ⟨heap, rfl, .refl heap rest, shared⟩
  | cons e order ih =>
    cases entries with
    | @cons _ key _ keys entry entries =>
      obtain ⟨heap1, released, turns⟩ := entryFree_spec entry
      obtain ⟨shared1, untouched⟩ := Shared.release shared nodup (List.mem_cons_self ..) turns
      rw [List.erase_cons_head] at shared1
      obtain ⟨outside, nodup'⟩ := List.nodup_cons.mp nodup
      have entries1 : Entries heap1 values (Function.update own key ∅) order keys := by
        apply Entries.mono entries
        intro other inside
        have different : other ≠ key := by
          rintro rfl
          exact outside inside
        exact ⟨untouched.other (List.mem_cons_of_mem _ inside) different, rfl, Function.update_of_ne different _ _⟩
      obtain ⟨heap', freed, kept', shared'⟩ := ih entries1 nodup' shared1
      refine ⟨heap', by simp [released, freed], untouched.foreign.trans kept', ?_⟩
      refine ⟨?_, fun a => (shared'.live a).trans ?_⟩
      · intro i memberI j memberJ different
        simp only [owners, List.toFinset_nil, Finset.image_empty, insert_empty_eq, Finset.mem_singleton] at memberI memberJ
        exact absurd (memberI.trans memberJ.symm) different
      · simp [owners, ownedBy]

theorem OwnsTable.clear {order : List AprEntry} (owns : OwnsTable heap table keys values own rest) (same : order.Perm table) :
    ∃ heap', rhashClear heap order = some (heap', []) ∧ OwnsTable heap' [] [] values own rest ∧ Agrees heap heap' rest := by
  have reversed : order.reverse.Perm table := (List.reverse_perm order).trans same
  obtain ⟨keys', entries, perm⟩ := List.perm_comp_forall₂ reversed owns.entries
  have nodup : keys'.Nodup := perm.nodup_iff.mpr owns.nodup
  have shared : Shared heap (owners keys') (ownedBy own rest) := by
    have same : owners keys' = owners keys := by
      ext i
      cases i with
      | none => simp [owners]
      | some other => simp [mem_owners, perm.mem_iff]
    rw [same]
    exact owns.shared
  obtain ⟨heap', freed, kept, shared'⟩ := release_all entries nodup shared
  rw [List.map_reverse] at freed
  exact ⟨heap', by simp [rhashClear, freed], ⟨.nil, List.nodup_nil, shared'⟩, kept⟩

variable {alloc : Allocator RhBlock} (memory : alloc.Succeeds)
include memory

/-- Replacement: the old value is released, and the entry keeps its key. -/
theorem OwnsTable.set_present {p : Nat} {vlen : Option Nat} {bytes : Bytes}
    (owns : OwnsTable heap table keys values own rest) (reads : readKey heap key klen = some text) (member : text ∈ keys)
    (readsVal : readVal heap p vlen = some bytes) (other : rhashGet heap table key klen ≠ some (some p)) :
    ∃ heap' own', rhashSet alloc heap table key klen (some p) vlen = some (heap', table) ∧
      OwnsTable heap' table keys (Function.update values text bytes) (Function.update own text own') rest ∧
      Untouched heap heap' keys own rest text := by
  obtain ⟨e, found, entry⟩ := aprFind_present owns.entries member
  obtain ⟨v, block, data, owned, apart, apart', apart''⟩ := entry.chunk
  have get : aprHashGet heap table key klen = some (some e.val) := by simp [aprHashGet, reads, found]
  have loads : loadEntry heap e.val = some (e.key, v) := by simp [loadEntry, block]
  have different : p ≠ v := by
    rintro rfl
    exact other (by simp [rhashGet, get, loads])
  let heap1 : Heap RhBlock := Function.update heap v none
  have released : heap.free v = some heap1 := Heap.free_of_live data
  have reads1 : readVal heap1 p vlen = some bytes := by
    rw [readVal_congr (show heap1 p = heap p from Function.update_of_ne different _ _), readsVal]
  obtain ⟨a, answered, unused, copies⟩ := duplicate_spec reads1 memory
    (owns.shared.bounded.update v none)
  have block1 : heap1 e.val = some (.entry e.key v) := (Function.update_of_ne apart _ _).trans block
  have key1 : heap1 e.key = heap e.key := Function.update_of_ne apart' _ _
  have notEntry : e.val ≠ a := by
    rintro rfl
    simp [block1] at unused
  have notKey : e.key ≠ a := by
    rintro rfl
    exact entry.keyHeld (key1 ▸ unused)
  let heap2 := heap1.put a (.data bytes)
  have block2 : heap2 e.val = some (.entry e.key v) := (Function.update_of_ne notEntry _ _).trans block1
  let heap3 := heap2.put e.val (.entry e.key a)
  have key3 : heap3 e.key = heap e.key :=
    (Function.update_of_ne (Ne.symm apart'') _ _).trans ((Function.update_of_ne notKey _ _).trans key1)
  have entry' : EntryAt heap3 e text bytes {e.val, e.key, a} := by
    refine ⟨⟨a, Function.update_self .., ?_, rfl, notEntry, notKey, apart''⟩, ?_, entry.length⟩
    · exact (Function.update_of_ne (Ne.symm notEntry) _ _).trans (Function.update_self ..)
    · rw [readKey_congr key3, entry.stored]
  have turns : Turns heap heap3 (own text) {e.val, e.key, a} := by
    have value := (turns_free heap v).both (turns_new unused (.data bytes)) (by simp) (by simp)
    have chunk := value.both (turns_write heap2 e.val (.entry e.key a)) (by simp [block]) (by simpa using Ne.symm apart)
    -- the block of the key is not touched
    have keyHeld : ∀ b ∈ ({e.key} : Finset Nat), heap b ≠ none := by simpa using entry.keyHeld
    have whole := chunk.frame keyHeld (by simpa using ⟨apart', Ne.symm apart''⟩)
    have regroup : ∀ b : Nat, ({e.val, e.key, b} : Finset Nat) = {b} ∪ {e.val} ∪ {e.key} := by
      intro b
      ext
      simp only [Finset.mem_insert, Finset.mem_union, Finset.mem_singleton]
      omega
    rwa [Finset.union_empty, Finset.empty_union, ← regroup, ← regroup, ← owned] at whole
  refine ⟨heap3, {e.val, e.key, a}, ?_, owns.change member turns fun others => ?_⟩
  · simp only [rhashSet, get, loads, different, released, copies, Option.bind_eq_bind, Option.bind_some, if_false]
    rw [Heap.write_of_live block2, Option.bind_some]
  · exact Entries.replace owns.entries owns.nodup found entry' others

/-- A new entry in memory, with a copy of the key and of the value. -/
structure NewEntry (heap heap' : Heap RhBlock) (e k v : Nat) (copied bytes : Bytes) : Prop where
  chunk : heap' e = some (.entry k v)
  keyCopy : heap' k = some (.data copied)
  valCopy : heap' v = some (.data bytes)
  apart : e ≠ v ∧ k ≠ v ∧ e ≠ k
  turns : Turns heap heap' ∅ {e, k, v}

theorem newEntry_spec {p : Nat} {vlen : Option Nat} {copied bytes : Bytes} (bounded : heap.Bounded)
    (copies : readVal heap key klen = some copied) (readsVal : readVal heap p vlen = some bytes) :
    ∃ e k v heap2 heap3 heap4, alloc.answer heap sizeofEntry = some e ∧
      duplicate alloc (heap.put e .uninitialized) key klen = some (heap2, k) ∧
      duplicate alloc heap2 p vlen = some (heap3, v) ∧ heap3.write e (.entry k v) = some heap4 ∧
      NewEntry heap heap4 e k v copied bytes := by
  obtain ⟨e, answered⟩ := Option.ne_none_iff_exists'.mp (memory heap sizeofEntry bounded)
  have unusedE := alloc.unused answered
  let heap1 := heap.put e .uninitialized
  have copies1 : readVal heap1 key klen = some copied := by
    rw [readVal_congr (put_of_live unusedE _ (readVal_held copies)), copies]
  have bounded1 := bounded.update e (some .uninitialized)
  obtain ⟨k, _, unusedK, duplicatesK⟩ := duplicate_spec copies1 memory bounded1
  let heap2 := heap1.put k (.data copied)
  have kept1 : heap1 p = heap p := put_of_live unusedE _ (readVal_held readsVal)
  have kept2 : heap2 p = heap1 p := put_of_live unusedK _ (kept1 ▸ readVal_held readsVal)
  have reads2 : readVal heap2 p vlen = some bytes := by rw [readVal_congr (kept2.trans kept1), readsVal]
  obtain ⟨v, _, unusedV, duplicatesV⟩ := duplicate_spec reads2 memory (bounded1.update k (some (.data copied)))
  let heap3 := heap2.put v (.data bytes)
  -- what is allocated is not handed out again
  have differentK : e ≠ k := by
    rintro rfl
    simp [heap1] at unusedK
  have differentV : k ≠ v := by
    rintro rfl
    simp [heap2] at unusedV
  have differentE : e ≠ v := by
    rintro rfl
    simp [heap2, heap1, differentK] at unusedV
  have block3 : heap3 e = some .uninitialized := by simp [heap3, heap2, heap1, differentK, differentE]
  refine ⟨e, k, v, heap2, heap3, heap3.put e (.entry k v), answered, duplicatesK, duplicatesV, write_of_live block3 _, ?_⟩
  refine ⟨Function.update_self .., ?_, ?_, ⟨differentE, differentV, differentK⟩, ?_⟩
  · simp [heap3, heap2, Ne.symm differentK, differentV]
  · simp [heap3, Ne.symm differentE]
  · have two := (turns_new unusedE .uninitialized).both (turns_new unusedK (.data copied)) (by simp) (by simp)
    have three := two.both (turns_new unusedV (.data bytes)) (by simp) (by simp)
    have copiesHeld : ∀ a ∈ ({k} ∪ {v} : Finset Nat), heap3 a ≠ none :=
      fun a member => three.held a (by rw [Finset.union_assoc]; exact Finset.mem_union_right _ member)
    have filled := (turns_write heap3 e (.entry k v)).frame copiesHeld (by simpa using ⟨differentK, differentE⟩)
    rw [Finset.union_assoc {e}] at three
    have whole := three.trans filled
    rwa [Finset.empty_union, Finset.empty_union, ← Finset.insert_eq, ← Finset.insert_eq] at whole

/-- Insertion: a new entry with copies of the key and the value. -/
theorem OwnsTable.set_absent {p : Nat} {vlen : Option Nat} {bytes : Bytes}
    (owns : OwnsTable heap table keys values own rest) (reads : readKey heap key klen = some text) (absent : text ∉ keys)
    (readsVal : readVal heap p vlen = some bytes) :
    ∃ heap' table' own', rhashSet alloc heap table key klen (some p) vlen = some (heap', table') ∧
      OwnsTable heap' table' (keys ++ [text]) (Function.update values text bytes) (Function.update own text own') rest ∧
      Untouched heap heap' keys own rest text := by
  obtain ⟨copied, copies⟩ : ∃ copied, readVal heap key klen = some copied := by
    cases klen with
    | none => exact ⟨text ++ [0], by simp [readVal, reads]⟩
    | some klen => exact ⟨text, reads⟩
  have get : aprHashGet heap table key klen = some none := by
    simp [aprHashGet, reads, aprFind_absent owns.entries absent]
  obtain ⟨e, k, v, heap2, heap3, heap4, answered, copiesKey, copiesVal, writes, new⟩ :=
    newEntry_spec memory owns.shared.bounded copies readsVal
  -- the table keeps the copy of the key, which is compared like the key itself
  obtain ⟨readsK, storedK⟩ := readKey_copy reads copies new.keyCopy
  obtain ⟨shared, untouched⟩ := Shared.acquire owns.shared absent new.turns
  have others : ∀ other ∈ keys, other ≠ text := by
    rintro other inside rfl
    exact absent inside
  have entries : Entries heap4 (Function.update values text bytes) (Function.update own text {e, k, v}) table keys := by
    apply Entries.mono owns.entries
    intro other inside
    have different := others other inside
    exact ⟨untouched.other inside different, Function.update_of_ne different _ _, Function.update_of_ne different _ _⟩
  have entry : EntryAt heap4 ⟨k, text.length, e⟩ text bytes {e, k, v} :=
    ⟨⟨v, new.chunk, new.valCopy, rfl, new.apart⟩, storedK, rfl⟩
  refine ⟨heap4, table ++ [⟨k, text.length, e⟩], {e, k, v}, ?_, ⟨?_, ?_, shared⟩, untouched⟩
  · simp only [rhashSet, get, answered, copiesKey, copiesVal, writes, aprHashSet, readsK, Option.bind_eq_bind, Option.bind_some,
      aprUpdate_add entries absent k e]
  · exact List.rel_append entries (.cons (by simpa using entry) .nil)
  · rw [List.nodup_append]
    refine ⟨owns.nodup, List.nodup_singleton text, fun other inside same memberSame => ?_⟩
    rw [List.mem_singleton.mp memberSame]
    exact others other inside

end OwnsTable

end Rsvndump
