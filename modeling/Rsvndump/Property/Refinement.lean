import Rsvndump.Property.Storage
import Mathlib.Data.Set.Function

/-! The property storage as a map from paths to properties.

Whatever calls are made, a path has the properties that were stored last, until
they are loaded or deleted. This rests on the counts: a set of properties is not
removed from the database while a path holds it.
-/

set_option autoImplicit false

namespace Rsvndump

open Library

/-! ## Serialized properties -/

theorem readInt_intBytes {n : Nat} (fits : n < 2147483648) (rest : Bytes) :
    readInt (intBytes n ++ rest) = some (n : Int) := by
  simp only [intBytes, List.cons_append, List.nil_append, readInt, UInt8.toNat_ofNat', Option.some.injEq]
  have value : n % 2 ^ 8 + 256 * (n / 256 % 2 ^ 8) + 65536 * (n / 65536 % 2 ^ 8) +
      16777216 * (n / 16777216 % 2 ^ 8) = n := by omega
  rw [value, if_pos fits]

/-- No name is empty, and the lengths fit in an `int`. `prop_hash_serialize` moves on by the
`int` it has written, so a longer name or value makes it leave its buffer. -/
def Fits (props : PropMap) : Prop :=
  ∀ e ∈ props.entries, e.1 ≠ [] ∧ e.1.length < 2147483648 ∧ e.2.length < 2147483648

instance (props : PropMap) : Decidable (Fits props) :=
  inferInstanceAs (Decidable (∀ e ∈ props.entries, e.1 ≠ [] ∧ e.1.length < 2147483648 ∧ e.2.length < 2147483648))

/-- No name is empty. -/
def NamedProps (props : PropMap) : Prop := ∀ e ∈ props.entries, e.1 ≠ []

instance (props : PropMap) : Decidable (NamedProps props) := inferInstanceAs (Decidable (∀ e ∈ props.entries, e.1 ≠ []))

/-- Each length is one in the serialization. -/
theorem fits_of_short {props : PropMap} (named : NamedProps props) (short : (propHashSerialize props).length < 2147483648) :
    Fits props := by
  intro e member
  have inside : serializeEntry e.1 e.2 ∈ props.entries.map fun e => serializeEntry e.1 e.2 :=
    List.mem_map.mpr ⟨e, member, rfl⟩
  have part := (List.sublist_flatten_of_mem inside).length_le
  rw [← List.flatMap_def] at part
  simp only [propHashSerialize, serializeEntry, List.length_append, CString.length_bytes] at part short
  exact ⟨named e member, by omega, by omega⟩

theorem reconstruct_step {fuel : Nat} {props : PropMap} {key : CString} {value rest : Bytes}
    (named : key ≠ []) (short : key.length < 2147483648) (small : value.length < 2147483648) :
    propHashReconstructLoop (fuel + 1) props (serializeEntry key value ++ rest) =
      propHashReconstructLoop fuel (props.insert key value) rest := by
  have positive : 0 < key.length := List.length_pos_iff.mpr named
  have four : ∀ n, (intBytes n).length = 4 := fun _ => rfl
  have first : readInt (serializeEntry key value ++ rest) = some (key.length : Int) := by
    simp only [serializeEntry, List.append_assoc]
    exact readInt_intBytes short _
  have after : (serializeEntry key value ++ rest).drop 4 = CString.bytes key ++ (intBytes value.length ++ (value ++ rest)) := by
    simp only [serializeEntry, List.append_assoc]
    exact List.drop_left' (four _)
  have name : ((serializeEntry key value ++ rest).drop 4).take key.length = CString.bytes key := by
    rw [after]
    exact List.take_left' (CString.length_bytes key)
  have behind : ((serializeEntry key value ++ rest).drop 4).drop key.length = intBytes value.length ++ (value ++ rest) := by
    rw [after]
    exact List.drop_left' (CString.length_bytes key)
  rw [propHashReconstructLoop, first]
  simp only [Option.bind_eq_bind, Option.bind_some, Int.natCast_eq_zero, if_neg (Nat.ne_of_gt positive),
    Int.natCast_pos, guard, if_pos positive, Int.toNat_natCast, name, behind, CString.ofBytes_bytes,
    readInt_intBytes small, Int.natCast_nonneg, if_true, List.drop_left' (four _), List.take_left, List.drop_left]
  rfl

theorem reconstruct_entries (entries : List ((_ : CString) × Bytes))
    (fits : ∀ e ∈ entries, e.1 ≠ [] ∧ e.1.length < 2147483648 ∧ e.2.length < 2147483648) {fuel : Nat}
    (enough : entries.length < fuel) (props : PropMap) :
    propHashReconstructLoop fuel props (entries.flatMap (fun e => serializeEntry e.1 e.2) ++ intBytes 0) =
      some (entries.foldl (fun m e => m.insert e.1 e.2) props) := by
  induction entries generalizing fuel props with
  | nil =>
    cases fuel with
    | zero => simp at enough
    | succ fuel =>
      rw [List.flatMap_nil, List.nil_append, propHashReconstructLoop]
      rfl
  | cons e entries ih =>
    cases fuel with
    | zero => simp at enough
    | succ fuel =>
      obtain ⟨named, short, small⟩ := fits e List.mem_cons_self
      rw [List.flatMap_cons, List.append_assoc, reconstruct_step named short small,
        ih (fun e member => fits e (List.mem_cons_of_mem _ member)) (by simpa using enough)]
      rfl

theorem lookup_foldl_insert (entries : List ((_ : CString) × Bytes)) (distinct : entries.NodupKeys)
    (f : Bytes → Bytes) (props : PropMap) (key : CString) :
    (entries.foldl (fun m e => m.insert e.1 (f e.2)) props).lookup key =
      ((entries.dlookup key).map f).or (props.lookup key) := by
  induction entries generalizing props with
  | nil => simp
  | cons e entries ih =>
    obtain ⟨name, value⟩ := e
    obtain ⟨fresh, distinct⟩ := List.nodupKeys_cons.mp distinct
    rw [List.foldl_cons, ih distinct]
    by_cases same : key = name
    · subst same
      rw [List.dlookup_cons_eq, List.dlookup_eq_none.mpr fresh]
      simp
    · rw [List.dlookup_cons_ne _ _ same, AList.lookup_insert_ne same]

theorem length_le_serialize (entries : List ((_ : CString) × Bytes)) :
    entries.length ≤ (entries.flatMap fun e => serializeEntry e.1 e.2).length := by
  induction entries with
  | nil => simp
  | cons e entries ih =>
    have nonempty : 0 < (serializeEntry e.1 e.2).length := by simp [serializeEntry, intBytes]
    rw [List.flatMap_cons, List.length_append, List.length_cons]
    omega

/-- A serialized set of properties is read back over what the hash holds already. -/
theorem propHashReconstruct_serialize {props : PropMap} (fits : Fits props) (into : PropMap) :
    ∃ loaded, propHashReconstruct into (propHashSerialize props) = some loaded ∧
      ∀ key, loaded.lookup key = (props.lookup key).or (into.lookup key) := by
  have enough : props.entries.length < (propHashSerialize props).length + 1 := by
    have := length_le_serialize props.entries
    simp only [propHashSerialize, List.length_append]
    omega
  refine ⟨_, reconstruct_entries props.entries fits enough into, fun key => ?_⟩
  have := lookup_foldl_insert props.entries props.nodupKeys id into key
  simpa [AList.lookup] using this

/-! ## Entries and counts -/

/-- How many paths hold a set of properties. -/
def holders (entries : AprHash Digest) (id : Digest) : Nat := entries.entries.countP fun e => e.2 = id

theorem holders_erase {entries : AprHash Digest} {path : CString} {held : Digest}
    (found : entries.lookup path = some held) (id : Digest) :
    holders entries id = holders (entries.erase path) id + (if held = id then 1 else 0) := by
  have inside : path ∈ entries.entries.keys := by
    refine List.mem_keys.mpr ⟨held, ?_⟩
    exact AList.mem_lookup_iff.mp found
  obtain ⟨b, before, after, fresh, split, erased⟩ := List.exists_of_kerase inside
  have same : b = held := by
    have listed : (⟨path, b⟩ : (_ : CString) × Digest) ∈ entries.entries := by
      rw [split]
      simp
    have := AList.mem_lookup_iff.mpr listed
    rw [found] at this
    exact (Option.mem_some_iff.mp this).symm
  subst same
  unfold holders AList.erase
  simp only
  rw [erased, split, List.countP_append, List.countP_append, List.countP_cons]
  simp only [decide_eq_true_eq]
  omega

theorem erase_of_absent {entries : AprHash Digest} {path : CString} (absent : entries.lookup path = none) :
    entries.erase path = entries := by
  apply AList.ext
  exact List.kerase_of_notMem_keys (AList.lookup_eq_none.mp absent)

theorem holders_erase_le (entries : AprHash Digest) (path : CString) (id : Digest) :
    holders (entries.erase path) id ≤ holders entries id := by
  cases found : entries.lookup path with
  | none => rw [erase_of_absent found]
  | some held =>
    rw [holders_erase found id]
    omega

theorem holders_insert (entries : AprHash Digest) (path : CString) (held id : Digest) :
    holders (entries.insert path held) id = holders (entries.erase path) id + (if held = id then 1 else 0) := by
  unfold holders AList.insert AList.erase
  simp only [List.kinsert_def, List.countP_cons, decide_eq_true_eq]

theorem holders_pos_iff {entries : AprHash Digest} {id : Digest} :
    0 < holders entries id ↔ ∃ path, entries.lookup path = some id := by
  unfold holders
  rw [List.countP_pos_iff]
  constructor
  · rintro ⟨⟨path, held⟩, listed, same⟩
    exact ⟨path, AList.mem_lookup_iff.mpr (of_decide_eq_true same ▸ listed)⟩
  · rintro ⟨path, found⟩
    exact ⟨⟨path, id⟩, AList.mem_lookup_iff.mp found, decide_eq_true rfl⟩

/-! ## What each call does -/

variable {sys : Platform} {store : PropertyStorage} {path : CString} {props : PropMap}

def countOf (store : PropertyStorage) (id : Digest) : Int := (store.refs.lookup id).getD 0

theorem propertyStore_empty (empty : props.entries.length = 0) :
    propertyStore sys store path props = { store with entries := store.entries.erase path } :=
  if_pos empty

theorem propertyStore_nonempty (nonempty : props.entries.length ≠ 0) :
    propertyStore sys store path props =
      { refs := store.refs.insert (sys.md5 (propHashSerialize props))
          (countOf store (sys.md5 (propHashSerialize props)) + 1)
        entries := store.entries.insert path (sys.md5 (propHashSerialize props))
        db :=
          if (store.refs.lookup (sys.md5 (propHashSerialize props))).isSome then store.db
          else store.db.insert (sys.md5 (propHashSerialize props)) (sys.compress (propHashSerialize props))
        gc := store.gc } := by
  unfold propertyStore countOf
  rw [if_neg nonempty]
  cases found : store.refs.lookup (sys.md5 (propHashSerialize props)) with
  | none => simp [found]
  | some count => simp [found]

theorem dereference_eq {id : Digest} {count : Int} (found : store.refs.lookup id = some count) :
    dereference store path id = some
      { store with
        entries := store.entries.erase path
        refs := store.refs.insert id (count - 1)
        gc := if count - 1 ≤ 0 ∧ gcKey id ∉ store.gc then store.gc.insert (gcKey id) id else store.gc } := by
  unfold dereference
  rw [found]
  rfl

/-- Removed by a cleanup of the queued identifiers `ids`. -/
def Removed (store : PropertyStorage) (ids : List Digest) (id : Digest) : Prop := id ∈ ids ∧ countOf store id ≤ 0

instance (ids : List Digest) (id : Digest) : Decidable (Removed store ids id) :=
  inferInstanceAs (Decidable (id ∈ ids ∧ countOf store id ≤ 0))

theorem cleanup_rounds {ids : List Digest} (distinct : ids.Nodup) (counted : ∀ id ∈ ids, id ∈ store.refs) :
    ∃ after, ids.foldlM cleanupOne store = some after ∧ after.entries = store.entries ∧
      (∀ id, after.refs.lookup id = if Removed store ids id then none else store.refs.lookup id) ∧
      ∀ id, after.db.lookup id = if Removed store ids id then none else store.db.lookup id := by
  induction ids generalizing store with
  | nil => exact ⟨store, rfl, rfl, by simp [Removed], by simp [Removed]⟩
  | cons first ids ih =>
    obtain ⟨fresh, distinct⟩ := List.nodup_cons.mp distinct
    obtain ⟨count, found⟩ := Option.isSome_iff_exists.mp (AList.lookup_isSome.mpr (counted first List.mem_cons_self))
    have known : countOf store first = count := by simp [countOf, found]
    have one : cleanupOne store first = some (if count ≤ 0 then
        { store with refs := store.refs.erase first, db := store.db.erase first } else store) := by
      simp [cleanupOne, found]
    rw [List.foldlM_cons, one]
    by_cases gone : count ≤ 0
    · rw [if_pos gone]
      -- the other queued references are still there
      obtain ⟨after, rounds, same, refs, db⟩ := @ih
        { store with refs := store.refs.erase first, db := store.db.erase first } distinct (fun id member => by
          have differs : id ≠ first := fun same => fresh (same ▸ member)
          exact AList.mem_erase.mpr ⟨differs, counted id (List.mem_cons_of_mem _ member)⟩)
      refine ⟨after, rounds, same, fun id => ?_, fun id => ?_⟩
      · rw [refs id]
        by_cases same : id = first
        · subst same
          simp [Removed, known, gone]
        · simp [Removed, countOf, same, AList.lookup_erase_ne same]
      · rw [db id]
        by_cases same : id = first
        · subst same
          simp [Removed, known, gone]
        · simp [Removed, countOf, same, AList.lookup_erase_ne same]
    · rw [if_neg gone]
      obtain ⟨after, rounds, same, refs, db⟩ := @ih store distinct
        (fun id member => counted id (List.mem_cons_of_mem _ member))
      have unchanged : ∀ id, Removed store (first :: ids) id ↔ Removed store ids id := by
        intro id
        unfold Removed
        by_cases same : id = first
        · subst same
          simp [known, gone]
        · simp [same]
      refine ⟨after, rounds, same, fun id => ?_, fun id => ?_⟩
      · simp only [refs id, unchanged]
      · simp only [db id, unchanged]

/-- What is queued is counted, and queued under its own key. -/
def Queued (store : PropertyStorage) : Prop :=
  ∀ key id, store.gc.lookup key = some id → key = gcKey id ∧ id ∈ store.refs

def queue (store : PropertyStorage) : List Digest := store.gc.entries.map Sigma.snd

theorem mem_queue {id : Digest} : id ∈ queue store ↔ ∃ key, store.gc.lookup key = some id := by
  unfold queue
  rw [List.mem_map]
  constructor
  · rintro ⟨⟨key, queued⟩, listed, rfl⟩
    exact ⟨key, AList.mem_lookup_iff.mpr listed⟩
  · rintro ⟨key, found⟩
    exact ⟨⟨key, id⟩, AList.mem_lookup_iff.mp found, rfl⟩

theorem Queued.nodup (queued : Queued store) : (queue store).Nodup := by
  unfold queue
  apply List.Nodup.map_on _ store.gc.nodupKeys.nodup
  rintro ⟨key, id⟩ first ⟨key', id'⟩ second (rfl : id = id')
  rw [(queued key id (AList.mem_lookup_iff.mpr first)).1, (queued key' id (AList.mem_lookup_iff.mpr second)).1]

/-- A cleanup removes exactly the queued references that nothing holds. -/
theorem cleanup_cases (queued : Queued store) :
    ∃ after, propertyStorageCleanup store = some after ∧ after.entries = store.entries ∧ after.gc = ∅ ∧
      (∀ id, after.refs.lookup id = if Removed store (queue store) id then none else store.refs.lookup id) ∧
      ∀ id, after.db.lookup id = if Removed store (queue store) id then none else store.db.lookup id := by
  have counted : ∀ id ∈ queue store, id ∈ store.refs := by
    intro id member
    obtain ⟨key, found⟩ := mem_queue.mp member
    exact (queued key id found).2
  obtain ⟨after, rounds, same, refs, db⟩ := cleanup_rounds queued.nodup counted
  refine ⟨{ after with gc := ∅ }, ?_, same, rfl, refs, db⟩
  unfold propertyStorageCleanup
  rw [show (store.gc.entries.map Sigma.snd).foldlM cleanupOne store = some after from rounds]
  rfl

theorem Queued.propertyStore (queued : Queued store) : Queued (Rsvndump.propertyStore sys store path props) := by
  intro key id found
  by_cases empty : props.entries.length = 0
  · rw [propertyStore_empty empty] at found ⊢
    exact queued key id found
  · rw [propertyStore_nonempty empty] at found ⊢
    exact ⟨(queued key id found).1, (AList.mem_insert _).mpr (.inr (queued key id found).2)⟩

theorem Queued.dereference {after : PropertyStorage} {held : Digest} (queued : Queued store)
    (done : dereference store path held = some after) : Queued after := by
  cases found : store.refs.lookup held with
  | none => simp [Rsvndump.dereference, found] at done
  | some count =>
    rw [dereference_eq found, Option.some.injEq] at done
    subst done
    intro key id listed
    have old : store.gc.lookup key = some id → key = gcKey id ∧ id ∈ store.refs.insert held (count - 1) :=
      fun before => ⟨(queued key id before).1, (AList.mem_insert _).mpr (.inr (queued key id before).2)⟩
    dsimp only at listed
    split at listed
    · by_cases same : key = gcKey held
      · rw [same, AList.lookup_insert, Option.some.injEq] at listed
        exact ⟨listed ▸ same, (AList.mem_insert _).mpr (.inl listed.symm)⟩
      · rw [AList.lookup_insert_ne same] at listed
        exact old listed
    · exact old listed

/-! ## Properties of paths -/

/-- The storage gives each path the properties `held`. All data comes from `known`. -/
structure Represents (sys : Platform) (known : Set Bytes) (store : PropertyStorage) (held : CString → PropMap) :
    Prop where
  absent : ∀ path, store.entries.lookup path = none → held path = ∅
  fits : ∀ path, Fits (held path)
  present : ∀ path id, store.entries.lookup path = some id →
    propHashSerialize (held path) ∈ known ∧ sys.md5 (propHashSerialize (held path)) = id
  counted : ∀ id, (holders store.entries id : Int) ≤ countOf store id
  stored : ∀ id, id ∈ store.refs →
    ∃ data ∈ known, sys.md5 data = id ∧ store.db.lookup id = some (sys.compress data)
  queued : Queued store

section Operations

variable {known : Set Bytes} {held : CString → PropMap}

theorem Represents.create : Represents sys known propertyStorageCreate fun _ => ∅ where
  absent _ _ := rfl
  fits _ e listed := by simp at listed
  present path id found := by simp [propertyStorageCreate] at found
  counted id := by simp [propertyStorageCreate, holders, countOf]
  stored id listed := absurd listed (AList.notMem_empty id)
  queued key id found := by simp [propertyStorageCreate] at found

/-- The reference of an entry is counted at least once. -/
theorem Represents.count_pos (rep : Represents sys known store held) {id : Digest}
    (found : store.entries.lookup path = some id) : 0 < countOf store id := by
  have := rep.counted id
  have := holders_pos_iff.mpr ⟨path, found⟩
  omega

theorem mem_refs_of_count {id : Digest} (positive : 0 < countOf store id) : id ∈ store.refs := by
  rw [← AList.lookup_isSome]
  cases found : store.refs.lookup id with
  | none => simp [countOf, found] at positive
  | some count => rfl

theorem fits_empty : Fits ∅ := fun e listed => by simp at listed

theorem eq_empty {props : PropMap} (empty : props.entries.length = 0) : props = ∅ :=
  AList.ext (List.length_eq_zero_iff.mp empty)

theorem Represents.propertyStore (rep : Represents sys known store held) (fits : Fits props)
    (listed : propHashSerialize props ∈ known) :
    Represents sys known (Rsvndump.propertyStore sys store path props) (Function.update held path props) := by
  have allFit : ∀ other, Fits (Function.update held path props other) := by
    intro other
    by_cases same : other = path
    · simpa [same] using fits
    · simpa [same] using rep.fits other
  -- an empty set takes the entry away, but the reference keeps its count
  by_cases empty : props.entries.length = 0
  · rw [propertyStore_empty empty]
    refine ⟨fun other missing => ?_, allFit, fun other id found => ?_, fun id => ?_, rep.stored, rep.queued⟩
    · by_cases same : other = path
      · simp [same, eq_empty empty]
      · rw [AList.lookup_erase_ne same] at missing
        simpa [same] using rep.absent other missing
    · by_cases same : other = path
      · rw [same, AList.lookup_erase] at found
        cases found
      · rw [AList.lookup_erase_ne same] at found
        simpa [same] using rep.present other id found
    · have := holders_erase_le store.entries path id
      have := rep.counted id
      simp only [countOf] at this ⊢
      omega
  · have queued := @Queued.propertyStore sys store path props rep.queued
    rw [propertyStore_nonempty empty] at queued ⊢
    refine ⟨fun other missing => ?_, allFit, fun other id found => ?_, fun id => ?_, fun id present => ?_, queued⟩
    · by_cases same : other = path
      · simp [same] at missing
      · rw [AList.lookup_insert_ne same] at missing
        simpa [same] using rep.absent other missing
    · by_cases same : other = path
      · subst same
        rw [AList.lookup_insert, Option.some.injEq] at found
        simpa [found] using listed
      · rw [AList.lookup_insert_ne same] at found
        simpa [same] using rep.present other id found
    · have := holders_erase_le store.entries path id
      have := rep.counted id
      rw [holders_insert]
      by_cases same : id = sys.md5 (propHashSerialize props)
      · subst same
        simp only [countOf, AList.lookup_insert, Option.getD_some, if_true] at this ⊢
        omega
      · simp only [countOf, AList.lookup_insert_ne same, if_neg (Ne.symm same)] at this ⊢
        omega
    · by_cases same : id = sys.md5 (propHashSerialize props)
      · subst same
        dsimp only
        split
        · next known => exact rep.stored _ (AList.lookup_isSome.mp known)
        · exact ⟨_, listed, rfl, AList.lookup_insert _⟩
      · have old : id ∈ store.refs := ((AList.mem_insert _).mp present).resolve_left same
        dsimp only
        split
        · exact rep.stored id old
        · rw [AList.lookup_insert_ne same]
          exact rep.stored id old

theorem Represents.dereference (rep : Represents sys known store held) {id : Digest}
    (found : store.entries.lookup path = some id) :
    ∃ after, Rsvndump.dereference store path id = some after ∧
      Represents sys known after (Function.update held path ∅) := by
  obtain ⟨count, counted⟩ := Option.isSome_iff_exists.mp
    (AList.lookup_isSome.mpr (mem_refs_of_count (rep.count_pos found)))
  have done := @dereference_eq store path _ _ counted
  have queued := rep.queued.dereference done
  refine ⟨_, done, fun other missing => ?_, fun other => ?_, fun other held listed => ?_, fun other => ?_,
    fun other present => ?_, queued⟩
  · by_cases same : other = path
    · simp [same]
    · rw [AList.lookup_erase_ne same] at missing
      simpa [same] using rep.absent other missing
  · by_cases same : other = path
    · simpa [same] using fits_empty
    · simpa [same] using rep.fits other
  · by_cases same : other = path
    · rw [same, AList.lookup_erase] at listed
      cases listed
    · rw [AList.lookup_erase_ne same] at listed
      simpa [same] using rep.present other held listed
  · have := holders_erase found other
    have before := rep.counted other
    by_cases same : other = id
    · subst same
      simp only [countOf, counted, AList.lookup_insert, Option.getD_some, if_true] at this before ⊢
      omega
    · simp only [countOf, AList.lookup_insert_ne same, if_neg (Ne.symm same)] at this before ⊢
      omega
  · have old : other ∈ store.refs := by
      obtain rfl | old := (AList.mem_insert _).mp present
      · exact mem_refs_of_count (rep.count_pos found)
      · exact old
    exact rep.stored other old

/-- Loading gives what the path holds and takes it out of the storage. -/
theorem Represents.propertyLoad (rep : Represents sys known store held) (injective : Set.InjOn sys.md5 known)
    (short : ∀ data ∈ known, data.length < 2147483648) (path : CString) (into : PropMap) :
    ∃ loaded after, Rsvndump.propertyLoad sys store path into = some (loaded, after) ∧
      (∀ key, loaded.lookup key = ((held path).lookup key).or (into.lookup key)) ∧
      Represents sys known after (Function.update held path ∅) := by
  unfold Rsvndump.propertyLoad
  cases found : store.entries.lookup path with
  | none =>
    have empty := rep.absent path found
    refine ⟨into, store, rfl, ?_, ?_⟩
    · simp [empty]
    · rwa [← empty, Function.update_eq_self]
  | some id =>
    obtain ⟨listed, hashed⟩ := rep.present path id found
    obtain ⟨data, other, same, stored⟩ := rep.stored id (mem_refs_of_count (rep.count_pos found))
    -- the checksum names the serialization of this path's properties
    have own : data = propHashSerialize (held path) := injective other listed (same.trans hashed.symm)
    obtain ⟨loaded, read, lookups⟩ := propHashReconstruct_serialize (rep.fits path) into
    obtain ⟨after, done, kept⟩ := rep.dereference found
    refine ⟨loaded, after, ?_, lookups, kept⟩
    simp [stored, own, sys.uncompress_compress _ (short _ listed), read, done]

theorem Represents.propertyDelete (rep : Represents sys known store held) (path : CString) :
    ∃ after, Rsvndump.propertyDelete store path = some after ∧
      Represents sys known after (Function.update held path ∅) := by
  unfold Rsvndump.propertyDelete
  cases found : store.entries.lookup path with
  | none =>
    refine ⟨store, rfl, ?_⟩
    rwa [← rep.absent path found, Function.update_eq_self]
  | some id => exact rep.dereference found

theorem Represents.cleanup (rep : Represents sys known store held) :
    ∃ after, propertyStorageCleanup store = some after ∧ Represents sys known after held ∧
      after.entries = store.entries ∧
      ∀ path id, store.entries.lookup path = some id →
        after.refs.lookup id = store.refs.lookup id ∧ after.db.lookup id = store.db.lookup id := by
  obtain ⟨after, done, entries, gc, refs, db⟩ := cleanup_cases rep.queued
  have kept : ∀ id, id ∈ after.refs → ¬ Removed store (queue store) id := by
    intro id present removed
    rw [← AList.lookup_isSome, refs id, if_pos removed] at present
    cases present
  refine ⟨after, done, ⟨?_, rep.fits, ?_, fun id => ?_, fun id present => ?_, ?_⟩, entries, ?_⟩
  · rw [entries]
    exact rep.absent
  · rw [entries]
    exact rep.present
  · have before := rep.counted id
    rw [entries]
    unfold countOf at before ⊢
    rw [refs id]
    split
    · next removed =>
      have := removed.2
      unfold countOf at this
      simpa using Int.le_trans before this
    · exact before
  · have still := kept id present
    rw [← AList.lookup_isSome, refs id, if_neg still] at present
    rw [db id, if_neg still]
    exact rep.stored id (AList.lookup_isSome.mp present)
  · intro key id found
    simp [gc] at found
  · intro path id found
    have still : ¬ Removed store (queue store) id := fun removed =>
      absurd (rep.count_pos found) (Int.not_lt.mpr removed.2)
    rw [refs id, db id, if_neg still, if_neg still]
    exact ⟨rfl, rfl⟩

end Operations

/-! ## Sequences of calls -/

inductive PropCall where
  | store (path : CString) (props : PropMap)
  | load (path : CString) (into : PropMap)
  | delete (path : CString)
  | cleanup

def propStep (sys : Platform) (store : PropertyStorage) : PropCall → Option PropertyStorage
  | .store path props => some (propertyStore sys store path props)
  | .load path into => (propertyLoad sys store path into).map Prod.snd
  | .delete path => propertyDelete store path
  | .cleanup => propertyStorageCleanup store

def propRun (sys : Platform) (calls : List PropCall) : Option PropertyStorage :=
  calls.foldlM (propStep sys) propertyStorageCreate

/-- What a call leaves to the paths. -/
def PropCall.leaves (held : CString → PropMap) : PropCall → CString → PropMap
  | .store path props => Function.update held path props
  | .load path _ => Function.update held path ∅
  | .delete path => Function.update held path ∅
  | .cleanup => held

/-- The properties stored last for each path, if they were neither loaded nor deleted since. -/
def lastStored (calls : List PropCall) : CString → PropMap := calls.foldl PropCall.leaves fun _ => ∅

/-- The serializations that a sequence of calls stores. -/
def serializations (calls : List PropCall) : Set Bytes :=
  { data | ∃ path props, PropCall.store path props ∈ calls ∧ data = propHashSerialize props }

section Runs

variable {known : Set Bytes} {held : CString → PropMap}

theorem Represents.step (rep : Represents sys known store held) (injective : Set.InjOn sys.md5 known)
    (short : ∀ data ∈ known, data.length < 2147483648) {call : PropCall}
    (named : ∀ path props, call = .store path props → NamedProps props ∧ propHashSerialize props ∈ known) :
    ∃ after, propStep sys store call = some after ∧ Represents sys known after (call.leaves held) := by
  cases call with
  | store path props =>
    obtain ⟨named, listed⟩ := named path props rfl
    exact ⟨_, rfl, rep.propertyStore (fits_of_short named (short _ listed)) listed⟩
  | load path into =>
    obtain ⟨loaded, after, done, -, kept⟩ := rep.propertyLoad injective short path into
    exact ⟨after, by simp [propStep, done], kept⟩
  | delete path => exact rep.propertyDelete path
  | cleanup =>
    obtain ⟨after, done, kept, -⟩ := rep.cleanup
    exact ⟨after, done, kept⟩

theorem Represents.run (rep : Represents sys known store held) (injective : Set.InjOn sys.md5 known)
    (short : ∀ data ∈ known, data.length < 2147483648) {calls : List PropCall}
    (named : ∀ path props, PropCall.store path props ∈ calls → NamedProps props ∧ propHashSerialize props ∈ known) :
    ∃ after, calls.foldlM (propStep sys) store = some after ∧
      Represents sys known after (calls.foldl PropCall.leaves held) := by
  induction calls generalizing store held with
  | nil => exact ⟨store, rfl, rep⟩
  | cons call calls ih =>
    obtain ⟨next, done, kept⟩ := rep.step injective short
      (fun path props same => named path props (same ▸ List.mem_cons_self))
    rw [List.foldlM_cons, done]
    exact ih kept fun path props member => named path props (List.mem_cons_of_mem _ member)

end Runs

end Rsvndump
