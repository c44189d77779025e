import Mathlib.Data.List.AList
import Mathlib.Data.List.Induction
import Rsvndump.Library.ByteFile

/-! The key-value file (mukv.c).

Values are appended to one file. The index tells for each key where its value
starts and how long it is; what is replaced or deleted stays in the file.
-/

set_option autoImplicit false

namespace Rsvndump

open Library

/-- `entry_t` -/
structure MukvEntry where
  off : Nat
  size : Nat

/-- `mukv_t`; the index is an `rhash_t` with copied keys and values. -/
structure Mukv where
  index : AList fun _ : Bytes => MukvEntry
  file : ByteFile

def mukvOpen : Mukv := ⟨∅, .empty⟩

/-- Stores a record. `written` is the number of bytes `fwrite` manages to write; the result tells
whether the store succeeded. -/
def mukvStore (kv : Mukv) (key val : Bytes) (written : Nat) : Bool × Mukv :=
  let file := kv.file.seekEnd
  let entry : MukvEntry := ⟨file.position, val.length⟩
  let data := val.take written
  let file := file.write data
  -- the index keeps its old entry, but the file has grown
  if data.length ≠ val.length then (false, { kv with file := file })
  else (true, ⟨kv.index.insert key entry, file⟩)

/-- Retrieves a record. The null datum is `none`. -/
def mukvFetch (kv : Mukv) (key : Bytes) : Option Bytes × Mukv :=
  match kv.index.lookup key with
  | none => (none, kv)
  | some entry =>
      -- no seek if the last access ended here
      let file := if kv.file.position ≠ entry.off then kv.file.seek entry.off else kv.file
      let (val, file) := file.read entry.size
      (if val.length ≠ entry.size then none else some val, { kv with file := file })

/-- Deletes a record (from the index, not from the disk). -/
def mukvDelete (kv : Mukv) (key : Bytes) : Mukv :=
  match kv.index.lookup key with
  | none => kv
  | some _ => { kv with index := kv.index.erase key }

/-- Checks whether a record exists. -/
def mukvExists (kv : Mukv) (key : Bytes) : Bool := (kv.index.lookup key).isSome

/-! ## Calls -/

inductive MukvCall where
  | store (key val : Bytes) (written : Nat)
  | fetch (key : Bytes)
  | delete (key : Bytes)
  | contains (key : Bytes)

def mukvStep (kv : Mukv) : MukvCall → Mukv
  | .store key val written => (mukvStore kv key val written).2
  | .fetch key => (mukvFetch kv key).2
  | .delete key => mukvDelete kv key
  | .contains _ => kv

def mukvRun (calls : List MukvCall) : Mukv := calls.foldl mukvStep mukvOpen

/-! ## The map it stands for -/

/-- A store that could write the whole value. -/
def MukvCall.stores (key val : Bytes) : MukvCall → Prop
  | .store key' val' written => key' = key ∧ val' = val ∧ val'.length ≤ written
  | _ => False

/-- The last successful store of the key was that of `val`, and no delete followed it. -/
def LastStore (calls : List MukvCall) (key val : Bytes) : Prop :=
  ∃ before call after, calls = before ++ call :: after ∧ call.stores key val ∧
    ∀ later ∈ after, later ≠ .delete key ∧ ∀ other, ¬ later.stores key other

/-- Each value in the index is in the file, and it is the one that was stored last. -/
structure Keeps (calls : List MukvCall) (kv : Mukv) : Prop where
  held : ∀ key entry, kv.index.lookup key = some entry →
    ∃ val, LastStore calls key val ∧ entry.size = val.length ∧ kv.file.Holds entry.off val
  there : ∀ key val, LastStore calls key val → (kv.index.lookup key).isSome

variable {calls : List MukvCall} {kv : Mukv} {key val : Bytes}

theorem MukvCall.stores_unique {call : MukvCall} {other : Bytes} (stores : call.stores key val)
    (stores' : call.stores key other) : val = other := by
  cases call with
  | store key' val' written => exact stores.2.1.symm.trans stores'.2.1
  | fetch | delete | contains => exact stores.elim

theorem not_lastStore_nil : ¬ LastStore [] key val := by
  rintro ⟨before, call, after, split, -⟩
  simp at split

/-- The last call decides if it stores the key or deletes it. -/
theorem lastStore_snoc {call : MukvCall} : LastStore (calls ++ [call]) key val ↔
    call.stores key val ∨ ((∀ other, ¬ call.stores key other) ∧ call ≠ .delete key ∧ LastStore calls key val) := by
  constructor
  · rintro ⟨before, stored, after, split, stores, quiet⟩
    rcases List.eq_nil_or_concat after with rfl | ⟨after, last, rfl⟩
    · obtain ⟨-, same⟩ := List.append_inj' split rfl
      cases same
      exact .inl stores
    · rw [List.concat_eq_append] at split quiet
      rw [← List.cons_append, ← List.append_assoc] at split
      obtain ⟨rfl, same⟩ := List.append_inj' split rfl
      cases same
      obtain ⟨kept, other⟩ := quiet call (List.mem_append_right _ (List.mem_singleton_self call))
      exact .inr ⟨other, kept, before, stored, after, rfl, stores, fun later member =>
        quiet later (List.mem_append_left _ member)⟩
  · rintro (stores | ⟨other, kept, before, stored, after, rfl, stores, quiet⟩)
    · exact ⟨calls, call, [], rfl, stores, by simp⟩
    · refine ⟨before, stored, after ++ [call], by simp, stores, fun later member => ?_⟩
      rcases List.mem_append.mp member with early | last
      · exact quiet later early
      · rw [List.mem_singleton.mp last]
        exact ⟨kept, other⟩

theorem LastStore.unique {other : Bytes} (last : LastStore calls key val) (last' : LastStore calls key other) :
    val = other := by
  induction calls using List.reverseRecOn with
  | nil => exact absurd last not_lastStore_nil
  | append_singleton calls call ih =>
    rw [lastStore_snoc] at last last'
    rcases last with stores | ⟨quiet, -, last⟩
    · rcases last' with stores' | ⟨quiet', -⟩
      · exact call.stores_unique stores stores'
      · exact absurd stores (quiet' val)
    · rcases last' with stores' | ⟨-, -, last'⟩
      · exact absurd stores' (quiet other)
      · exact ih last last'

/-- A call that does not succeed in storing anything and deletes nothing. -/
def MukvCall.idle (call : MukvCall) : Prop := ∀ key, (∀ val, ¬ call.stores key val) ∧ call ≠ .delete key

theorem MukvCall.idle.lastStore {call : MukvCall} (idle : call.idle) :
    LastStore (calls ++ [call]) key val ↔ LastStore calls key val := by
  obtain ⟨other, kept⟩ := idle key
  rw [lastStore_snoc]
  constructor
  · rintro (stores | ⟨-, -, last⟩)
    · exact absurd stores (other val)
    · exact last
  · exact fun last => .inr ⟨other, kept, last⟩

theorem idle_fetch (key : Bytes) : (MukvCall.fetch key).idle := fun _ => ⟨fun _ => id, MukvCall.noConfusion⟩

theorem idle_contains (key : Bytes) : (MukvCall.contains key).idle := fun _ => ⟨fun _ => id, MukvCall.noConfusion⟩

theorem idle_short {written : Nat} (short : written < val.length) : (MukvCall.store key val written).idle :=
  fun _ => ⟨fun _ stores => absurd stores.2.2 (Nat.not_le.mpr short), MukvCall.noConfusion⟩

/-! ## Steps -/

theorem keeps_open : Keeps [] mukvOpen where
  held key entry found := by
    rw [mukvOpen, AList.lookup_empty] at found
    cases found
  there key val last := absurd last not_lastStore_nil

/-- The file may grow, and the position does not matter. -/
theorem Keeps.idle (keeps : Keeps calls kv) {call : MukvCall} (idle : call.idle) {kv' : Mukv} (more : Bytes)
    (index : kv'.index = kv.index) (file : kv'.file.content = kv.file.content ++ more) : Keeps (calls ++ [call]) kv' where
  held key entry found := by
    rw [index] at found
    obtain ⟨val, last, size, holds⟩ := keeps.held key entry found
    exact ⟨val, idle.lastStore.mpr last, size, holds.append file⟩
  there key val last := by
    rw [index]
    exact keeps.there key val (idle.lastStore.mp last)

theorem Keeps.store (keeps : Keeps calls kv) (key val : Bytes) (written : Nat) :
    Keeps (calls ++ [.store key val written]) (mukvStore kv key val written).2 := by
  have file : (kv.file.seekEnd.write (val.take written)).content = kv.file.content ++ val.take written :=
    kv.file.write_at_end _
  unfold mukvStore
  dsimp only
  split
  · next short =>
    rw [List.length_take] at short
    exact keeps.idle (idle_short (by omega)) _ rfl file
  · next whole =>
    rw [ne_eq, not_not, List.length_take] at whole
    replace whole : val.length ≤ written := by omega
    rw [List.take_of_length_le whole] at file ⊢
    have own : MukvCall.stores key val (.store key val written) := ⟨rfl, rfl, whole⟩
    have others : ∀ key', key' ≠ key → ∀ val', ¬ MukvCall.stores key' val' (.store key val written) :=
      fun key' other val' stores => other stores.1.symm
    refine ⟨fun key' entry found => ?_, fun key' val' last => ?_⟩
    · by_cases same : key' = key
      · subst same
        rw [AList.lookup_insert, Option.some.injEq] at found
        subst found
        exact ⟨val, lastStore_snoc.mpr (.inl own), rfl, ByteFile.holds_appended file⟩
      · rw [AList.lookup_insert_ne same] at found
        obtain ⟨val', last, size, holds⟩ := keeps.held key' entry found
        refine ⟨val', lastStore_snoc.mpr (.inr ⟨others key' same, MukvCall.noConfusion, last⟩), size, holds.append file⟩
    · by_cases same : key' = key
      · subst same
        rw [AList.lookup_insert]
        rfl
      · rw [AList.lookup_insert_ne same]
        rcases lastStore_snoc.mp last with stores | ⟨-, -, last⟩
        · exact absurd stores (others key' same val')
        · exact keeps.there key' val' last

theorem Keeps.delete (keeps : Keeps calls kv) (key : Bytes) : Keeps (calls ++ [.delete key]) (mukvDelete kv key) := by
  have others : ∀ key' val, ¬ MukvCall.stores key' val (.delete key) := fun _ _ stores => stores
  have gone : ∀ val, ¬ LastStore (calls ++ [.delete key]) key val := by
    intro val last
    rcases lastStore_snoc.mp last with stores | ⟨-, kept, -⟩
    · exact stores
    · exact kept rfl
  have kept : ∀ key' val, key' ≠ key → (LastStore (calls ++ [.delete key]) key' val ↔ LastStore calls key' val) := by
    intro key' val other
    rw [lastStore_snoc]
    constructor
    · rintro (stores | ⟨-, -, last⟩)
      · exact stores.elim
      · exact last
    · refine fun last => .inr ⟨others key', fun same => ?_, last⟩
      cases same
      exact other rfl
  have lookup : ∀ key', (mukvDelete kv key).index.lookup key' = if key' = key then none else kv.index.lookup key' := by
    intro key'
    unfold mukvDelete
    split
    · next absent =>
      split
      · next same => rw [same, absent]
      · rfl
    · split
      · next same => rw [same, AList.lookup_erase]
      · next other => rw [AList.lookup_erase_ne other]
  have file : (mukvDelete kv key).file = kv.file := by
    unfold mukvDelete
    split <;> rfl
  refine ⟨fun key' entry found => ?_, fun key' val last => ?_⟩
  · rw [lookup] at found
    split at found
    · cases found
    · next other =>
      obtain ⟨val, last, size, holds⟩ := keeps.held key' entry found
      rw [file]
      exact ⟨val, (kept key' val other).mpr last, size, holds⟩
  · rw [lookup]
    split
    · next same =>
      subst same
      exact absurd last (gone val)
    · next other => exact keeps.there key' val ((kept key' val other).mp last)

theorem Keeps.step (keeps : Keeps calls kv) (call : MukvCall) : Keeps (calls ++ [call]) (mukvStep kv call) := by
  cases call with
  | store key val written => exact keeps.store key val written
  | delete key => exact keeps.delete key
  | contains key => exact keeps.idle (idle_contains key) [] rfl (List.append_nil _).symm
  | fetch key =>
    refine keeps.idle (idle_fetch key) [] ?_ ?_
    · simp only [mukvStep, mukvFetch]
      split <;> rfl
    · simp only [mukvStep, mukvFetch, List.append_nil]
      split
      · rfl
      · dsimp only
        split <;> rfl

theorem keeps_run (calls : List MukvCall) : Keeps calls (mukvRun calls) := by
  induction calls using List.reverseRecOn with
  | nil => exact keeps_open
  | append_singleton calls call ih =>
    rw [mukvRun, List.foldl_append]
    exact ih.step call

/-! ## Answers -/

theorem Keeps.fetch (keeps : Keeps calls kv) (key val : Bytes) :
    (mukvFetch kv key).1 = some val ↔ LastStore calls key val := by
  unfold mukvFetch
  cases found : kv.index.lookup key with
  | none =>
    refine iff_of_false (by simp) fun last => ?_
    have there := keeps.there key val last
    rw [found] at there
    cases there
  | some entry =>
    obtain ⟨val', last, size, holds⟩ := keeps.held key entry found
    have placed : (if kv.file.position ≠ entry.off then kv.file.seek entry.off else kv.file) = kv.file.seek entry.off := by
      split
      · rfl
      · next there =>
        rw [ne_eq, not_not] at there
        rw [← there]
        rfl
    simp only [placed, size, holds.read, ne_eq, not_true, if_false, Option.some.injEq]
    exact ⟨fun same => same ▸ last, last.unique⟩

theorem Keeps.contains (keeps : Keeps calls kv) (key : Bytes) :
    mukvExists kv key = true ↔ ∃ val, LastStore calls key val := by
  rw [mukvExists, Option.isSome_iff_exists]
  constructor
  · rintro ⟨entry, found⟩
    obtain ⟨val, last, -⟩ := keeps.held key entry found
    exact ⟨val, last⟩
  · rintro ⟨val, last⟩
    exact Option.isSome_iff_exists.mp (keeps.there key val last)

/-- The file stands for the map of the values that were stored last and not deleted since. A store
that fails does not change it. -/
theorem mukv_implements_map (calls : List MukvCall) (key : Bytes) :
    (mukvExists (mukvRun calls) key = true ↔ ∃ val, LastStore calls key val) ∧
      (∀ val, (mukvFetch (mukvRun calls) key).1 = some val ↔ LastStore calls key val) ∧
      ∀ (stored val : Bytes) (written : Nat), (mukvStore (mukvRun calls) stored val written).1 = false →
        mukvExists (mukvStore (mukvRun calls) stored val written).2 key = mukvExists (mukvRun calls) key ∧
        (mukvFetch (mukvStore (mukvRun calls) stored val written).2 key).1 = (mukvFetch (mukvRun calls) key).1 := by
  have keeps := keeps_run calls
  refine ⟨keeps.contains key, keeps.fetch key, fun stored val written failed => ?_⟩
  have after := keeps.store stored val written
  have short : written < val.length := by
    by_contra whole
    rw [mukvStore] at failed
    simp only [List.take_of_length_le (Nat.le_of_not_lt whole), ne_eq, not_true, if_false] at failed
    cases failed
  have same : ∀ other, LastStore (calls ++ [.store stored val written]) key other ↔ LastStore calls key other :=
    fun _ => (idle_short short).lastStore
  constructor
  · rw [Bool.eq_iff_iff, after.contains, keeps.contains]
    exact exists_congr same
  · refine Option.ext fun other => ?_
    rw [after.fetch, keeps.fetch, same]

/-- A value that was stored again in part only is still the old one. -/
theorem mukv_implements_map_short :
    (mukvFetch (mukvStore (mukvRun [.store [1] [2, 3] 2, .fetch [1]]) [1] [4, 5, 6] 1).2 [1]).1 = some [2, 3] :=
  ((mukv_implements_map [.store [1] [2, 3] 2, .fetch [1]] [1]).2.2 [1] [4, 5, 6] 1 rfl).2.trans rfl

end Rsvndump
