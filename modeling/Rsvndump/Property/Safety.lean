import Rsvndump.Property.Refinement
import Rsvndump.Snappy.RoundTrip

/-! What is stored is loaded again.

The compressor counts in an `int`. A set whose serialization is longer is stored
without an error and cannot be loaded.
-/

set_option autoImplicit false

namespace Rsvndump

open Library

/-- Every sequence of calls that stores short sets succeeds. After it, a path loads the properties
stored last, and a cleanup leaves what the paths refer to. -/
theorem property_store_safe (sys : Platform) (calls : List PropCall)
    (named : ∀ path props, PropCall.store path props ∈ calls → NamedProps props)
    (injective : Set.InjOn sys.md5 (serializations calls))
    (short : ∀ data ∈ serializations calls, data.length < 2147483648) :
    ∃ store, propRun sys calls = some store ∧
      (∀ path into, ∃ loaded after, propertyLoad sys store path into = some (loaded, after) ∧
        ∀ key, loaded.lookup key = ((lastStored calls path).lookup key).or (into.lookup key)) ∧
      ∃ cleaned, propertyStorageCleanup store = some cleaned ∧ cleaned.entries = store.entries ∧
        ∀ path id, store.entries.lookup path = some id →
          (id ∈ store.refs ∧ id ∈ store.db) ∧
          cleaned.refs.lookup id = store.refs.lookup id ∧ cleaned.db.lookup id = store.db.lookup id := by
  obtain ⟨store, done, rep⟩ := Represents.create.run injective short
    (fun path props member => ⟨named path props member, path, props, member, rfl⟩)
  refine ⟨store, done, fun path into => ?_, ?_⟩
  · obtain ⟨loaded, after, success, lookups, -⟩ := rep.propertyLoad injective short path into
    exact ⟨loaded, after, success, lookups⟩
  · obtain ⟨cleaned, success, -, entries, kept⟩ := rep.cleanup
    refine ⟨cleaned, success, entries, fun path id found => ⟨?_, kept path id found⟩⟩
    have counted := mem_refs_of_count (rep.count_pos found)
    obtain ⟨data, -, -, stored⟩ := rep.stored id counted
    exact ⟨counted, AList.lookup_isSome.mp (by rw [stored]; rfl)⟩

/-- A set that two paths share is left by the first and stored again before the cleanup. -/
def sharedCalls : List PropCall :=
  let props : PropMap := AList.insert (cstr "a") [1] ∅
  [.store (cstr "f") props, .store (cstr "g") props, .delete (cstr "f"), .load (cstr "g") ∅,
    .store (cstr "h") props, .cleanup]

theorem sharedCalls_props {path : CString} {props : PropMap} (member : PropCall.store path props ∈ sharedCalls) :
    props = AList.insert (cstr "a") [1] ∅ := by
  simp only [sharedCalls, List.mem_cons, PropCall.store.injEq, reduceCtorEq, List.not_mem_nil, or_false,
    false_or] at member
  obtain ⟨-, same⟩ | ⟨-, same⟩ | ⟨-, same⟩ := member <;> exact same

theorem property_store_safe_shared :
    ∃ store, propRun Platform.plain sharedCalls = some store ∧
      (∀ path into, ∃ loaded after, propertyLoad Platform.plain store path into = some (loaded, after) ∧
        ∀ key, loaded.lookup key = ((lastStored sharedCalls path).lookup key).or (into.lookup key)) ∧
      ∃ cleaned, propertyStorageCleanup store = some cleaned ∧ cleaned.entries = store.entries ∧
        ∀ path id, store.entries.lookup path = some id →
          (id ∈ store.refs ∧ id ∈ store.db) ∧
          cleaned.refs.lookup id = store.refs.lookup id ∧ cleaned.db.lookup id = store.db.lookup id := by
  apply property_store_safe
  · intro path props member
    rw [sharedCalls_props member]
    decide
  · exact Function.Injective.injOn Function.injective_id
  · rintro data ⟨path, props, member, rfl⟩
    rw [sharedCalls_props member]
    decide

/-! ## A long set -/

theorem length_zeros (size : Nat) : (List.replicate size (0 : UInt8)).length = size := List.length_replicate

/-- The compressor on zeroed memory. -/
def zeroedSnappy : Platform :=
  Snappy.snappyPlatform (fun size => ⟨List.replicate size 0, length_zeros size⟩) id (fun _ target => target) fun _ _ => 0

/-- Up to 2^32 bytes, a longer text cannot be decompressed. -/
theorem zeroedSnappy_unread {data : Bytes} (long : 2147483648 ≤ data.length) (counted : data.length < 4294967296) :
    zeroedSnappy.uncompress (zeroedSnappy.compress data) = none := by
  rw [zeroedSnappy, Snappy.snappyPlatform_reads]
  exact Snappy.countedText_negative long counted

/-- What cannot be decompressed is stored, but not loaded again. -/
theorem propertyLoad_unread {sys : Platform} {path : CString} {props : PropMap} (nonempty : props.entries.length ≠ 0)
    (unread : sys.uncompress (sys.compress (propHashSerialize props)) = none) :
    ∃ store, propRun sys [.store path props] = some store ∧ propertyLoad sys store path ∅ = none := by
  have ran : propRun sys [.store path props] = some (propertyStore sys propertyStorageCreate path props) := by
    simp only [propRun, List.foldlM_cons, List.foldlM_nil, propStep, Option.bind_eq_bind, Option.bind_some, Option.pure_def]
  have fresh : ∀ id, propertyStorageCreate.refs.lookup id = none := fun id => AList.lookup_empty id
  refine ⟨_, ran, ?_⟩
  rw [propertyLoad, propertyStore_nonempty nonempty]
  simp only [AList.lookup_insert, fresh, Option.isSome_none, Bool.false_eq_true, if_false, Option.bind_eq_bind,
    Option.bind_some, unread, Option.bind_none]

/-- Two properties with one value. -/
def doubledProps (value : Bytes) : PropMap := AList.insert (cstr "a") value (AList.singleton (cstr "b") value)

theorem doubledProps_entries (value : Bytes) : (doubledProps value).entries = [⟨cstr "a", value⟩, ⟨cstr "b", value⟩] := rfl

theorem length_doubledProps (value : Bytes) : (propHashSerialize (doubledProps value)).length = 22 + 2 * value.length := by
  have four : ∀ n, (intBytes n).length = 4 := fun _ => rfl
  have one : (cstr "a").length = 1 ∧ (cstr "b").length = 1 := ⟨rfl, rfl⟩
  simp only [propHashSerialize, doubledProps_entries, List.flatMap_cons, List.flatMap_nil, serializeEntry, List.length_append,
    four, CString.length_bytes, one, List.length_nil]
  omega

theorem doubledProps_named (value : Bytes) : NamedProps (doubledProps value) := by
  intro e member
  rw [doubledProps_entries, List.mem_cons, List.mem_singleton] at member
  obtain rfl | rfl := member <;> exact List.cons_ne_nil _ _

/-- The lengths of two values fit in an `int`, but not that of both. -/
theorem property_store_long :
    NamedProps (doubledProps (List.replicate 1200000000 0)) ∧
      Set.InjOn zeroedSnappy.md5 (serializations [.store (cstr "f") (doubledProps (List.replicate 1200000000 0))]) ∧
      ∃ store, propRun zeroedSnappy [.store (cstr "f") (doubledProps (List.replicate 1200000000 0))] = some store ∧
        propertyLoad zeroedSnappy store (cstr "f") ∅ = none := by
  have length := length_doubledProps (List.replicate 1200000000 0)
  rw [List.length_replicate] at length
  have unread := @zeroedSnappy_unread (propHashSerialize (doubledProps (List.replicate 1200000000 0))) (by omega) (by omega)
  refine ⟨doubledProps_named _, Function.Injective.injOn Function.injective_id, propertyLoad_unread ?_ unread⟩
  rw [doubledProps_entries]
  exact Nat.succ_ne_zero _

end Rsvndump
