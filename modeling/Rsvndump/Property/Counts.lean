import Rsvndump.Property.Refinement

/-! The reference counts of the property storage.

`property_store` does not give up the reference of an entry that it replaces or
removes, and the cleanup queue is keyed by the front of an identifier. Where
neither comes up, the counts are exact and a cleanup leaves nothing behind.
-/

set_option autoImplicit false

namespace Rsvndump

open Library

variable {sys : Platform} {store : PropertyStorage} {path : CString} {props : PropMap}

/-- A call before which nothing is stored for the path, or which does not bring a count to zero
while another identifier is queued under the same key. -/
def PropCall.Clean (store : PropertyStorage) : PropCall → Prop
  | .store path _ => store.entries.lookup path = none
  | .load path _ | .delete path => ∀ id, store.entries.lookup path = some id → store.refs.lookup id = some 1 →
      ∀ other, store.gc.lookup (gcKey id) = some other → other = id
  | .cleanup => True

/-- Every call is clean in the state it is made in. -/
def CleanRun (sys : Platform) : PropertyStorage → List PropCall → Prop
  | _, [] => True
  | store, call :: calls => call.Clean store ∧ ∀ after, propStep sys store call = some after → CleanRun sys after calls

structure Exact (store : PropertyStorage) : Prop where
  counts : ∀ id, countOf store id = holders store.entries id
  data : ∀ id, id ∈ store.db ↔ id ∈ store.refs
  waiting : ∀ id, store.refs.lookup id = some 0 → store.gc.lookup (gcKey id) = some id
  queued : Queued store

theorem Exact.create : Exact propertyStorageCreate where
  counts id := by simp [propertyStorageCreate, countOf, holders]
  data id := Iff.rfl
  waiting id found := by simp [propertyStorageCreate] at found
  queued key id found := by simp [propertyStorageCreate] at found

theorem Exact.propertyStore (exact : Exact store) (fresh : store.entries.lookup path = none) :
    Exact (Rsvndump.propertyStore sys store path props) := by
  have queued := @Queued.propertyStore sys store path props exact.queued
  by_cases empty : props.entries.length = 0
  · rw [propertyStore_empty empty, erase_of_absent fresh]
    exact exact
  · rw [propertyStore_nonempty empty] at queued ⊢
    refine ⟨fun id => ?_, fun id => ?_, fun id zero => ?_, queued⟩
    · have before := exact.counts id
      rw [holders_insert, erase_of_absent fresh]
      by_cases same : id = sys.md5 (propHashSerialize props)
      · subst same
        simp only [countOf, AList.lookup_insert, Option.getD_some, if_true] at before ⊢
        omega
      · simp only [countOf, AList.lookup_insert_ne same, if_neg (Ne.symm same)] at before ⊢
        omega
    · have before := exact.data id
      rw [AList.mem_insert]
      dsimp only
      split
      · next known =>
        constructor
        · exact fun stored => .inr (before.mp stored)
        · rintro (rfl | counted)
          · exact before.mpr (AList.lookup_isSome.mp known)
          · exact before.mpr counted
      · rw [AList.mem_insert, before]
    · by_cases same : id = sys.md5 (propHashSerialize props)
      · -- a reference that was just taken is not at zero
        subst same
        have := exact.counts (sys.md5 (propHashSerialize props))
        rw [AList.lookup_insert, Option.some.injEq] at zero
        omega
      · rw [AList.lookup_insert_ne same] at zero
        exact exact.waiting id zero

theorem Exact.dereference (exact : Exact store) {id : Digest} {after : PropertyStorage}
    (found : store.entries.lookup path = some id)
    (clean : store.refs.lookup id = some 1 → ∀ other, store.gc.lookup (gcKey id) = some other → other = id)
    (done : dereference store path id = some after) : Exact after := by
  have queued := exact.queued.dereference done
  cases counted : store.refs.lookup id with
  | none => simp [Rsvndump.dereference, counted] at done
  | some count =>
    rw [dereference_eq counted, Option.some.injEq] at done
    subst done
    have own : count = holders store.entries id := by
      have := exact.counts id
      rwa [countOf, counted] at this
    have positive := holders_pos_iff.mpr ⟨path, found⟩
    refine ⟨fun other => ?_, fun other => ?_, fun other zero => ?_, queued⟩
    · have before := exact.counts other
      have := holders_erase found other
      by_cases same : other = id
      · subst same
        simp only [countOf, AList.lookup_insert, Option.getD_some, if_true] at this ⊢
        omega
      · simp only [countOf, AList.lookup_insert_ne same, if_neg (Ne.symm same)] at this before ⊢
        omega
    · rw [AList.mem_insert, exact.data other]
      constructor
      · exact Or.inr
      · rintro (rfl | known)
        · exact AList.lookup_isSome.mp (by rw [counted]; rfl)
        · exact known
    · by_cases same : other = id
      · subst same
        rw [AList.lookup_insert, Option.some.injEq] at zero
        dsimp only
        split
        · exact AList.lookup_insert _
        · next full =>
          -- the key is taken, by this identifier
          have taken : gcKey other ∈ store.gc := by
            by_contra free
            exact full ⟨by omega, free⟩
          obtain ⟨queuedId, listed⟩ := Option.isSome_iff_exists.mp (AList.lookup_isSome.mpr taken)
          have last : store.refs.lookup other = some 1 := by rw [counted]; congr; omega
          rw [listed, clean last queuedId listed]
      · rw [AList.lookup_insert_ne same] at zero
        have before := exact.waiting other zero
        dsimp only
        split
        · next free =>
          have differs : gcKey other ≠ gcKey id := by
            intro key
            rw [key] at before
            exact free.2 (AList.lookup_isSome.mp (by rw [before]; rfl))
          rwa [AList.lookup_insert_ne differs]
        · exact before

/-- After a cleanup the references are those that some entry holds. -/
theorem Exact.cleanup (exact : Exact store) :
    ∃ after, propertyStorageCleanup store = some after ∧ Exact after ∧
      ∀ id, id ∈ after.refs ↔ ∃ path, after.entries.lookup path = some id := by
  obtain ⟨after, done, entries, gc, refs, db⟩ := cleanup_cases exact.queued
  -- every reference at zero is in the queue, so that none of them is left
  have removed : ∀ id, Removed store (queue store) id ↔ store.refs.lookup id = some 0 := by
    intro id
    have counts := exact.counts id
    constructor
    · rintro ⟨member, low⟩
      obtain ⟨key, listed⟩ := mem_queue.mp member
      obtain ⟨count, found⟩ := Option.isSome_iff_exists.mp (AList.lookup_isSome.mpr (exact.queued key id listed).2)
      rw [countOf, found, Option.getD_some] at counts low
      rw [found]
      congr
      omega
    · intro zero
      refine ⟨mem_queue.mpr ⟨_, exact.waiting id zero⟩, ?_⟩
      simp [countOf, zero]
  have counts : ∀ id, countOf after id = countOf store id := by
    intro id
    unfold countOf
    rw [refs id]
    split
    · next gone =>
      rw [(removed id).mp gone]
      rfl
    · rfl
  have present : ∀ id, id ∈ after.refs ↔ 0 < countOf store id := by
    intro id
    have low := exact.counts id
    rw [← AList.lookup_isSome, refs id]
    simp only [removed]
    unfold countOf at low ⊢
    cases found : store.refs.lookup id with
    | none => simp
    | some count =>
      rw [found, Option.getD_some] at low
      by_cases zero : count = 0
      · simp [zero]
      · have positive : 0 < count := by omega
        simp [zero, positive]
  refine ⟨after, done, ⟨fun id => ?_, fun id => ?_, fun id zero => ?_, fun key id found => ?_⟩, fun id => ?_⟩
  · rw [counts, entries]
    exact exact.counts id
  · rw [← AList.lookup_isSome, db id, ← AList.lookup_isSome, refs id]
    split
    · rfl
    · rw [AList.lookup_isSome, AList.lookup_isSome]
      exact exact.data id
  · have member : id ∈ after.refs := AList.lookup_isSome.mp (by rw [zero]; rfl)
    have := (present id).mp member
    rw [← counts, countOf, zero] at this
    exact absurd this (by simp)
  · simp [gc] at found
  · rw [present, exact.counts, entries, ← holders_pos_iff]
    omega

theorem Exact.step (exact : Exact store) {call : PropCall} {after : PropertyStorage} (clean : call.Clean store)
    (done : propStep sys store call = some after) : Exact after := by
  cases call with
  | store path props =>
    rw [propStep, Option.some.injEq] at done
    rw [← done]
    exact exact.propertyStore clean
  | load path into =>
    rw [propStep, propertyLoad] at done
    cases found : store.entries.lookup path with
    | none =>
      rw [found] at done
      exact Option.some.inj done ▸ exact
    | some id =>
      rw [found] at done
      simp only [Option.bind_eq_bind, Option.map_eq_some_iff, Option.bind_eq_some_iff, Option.pure_def,
        Option.some.injEq] at done
      obtain ⟨-, ⟨-, -, -, -, -, -, kept, dereferenced, rfl⟩, rfl⟩ := done
      exact exact.dereference found (clean id found) dereferenced
  | delete path =>
    rw [propStep, propertyDelete] at done
    cases found : store.entries.lookup path with
    | none =>
      rw [found] at done
      exact Option.some.inj done ▸ exact
    | some id =>
      rw [found] at done
      exact exact.dereference found (clean id found) done
  | cleanup =>
    obtain ⟨cleaned, success, kept, -⟩ := exact.cleanup
    rw [propStep, success, Option.some.injEq] at done
    exact done ▸ kept

theorem Exact.run (exact : Exact store) {calls : List PropCall} {after : PropertyStorage}
    (clean : CleanRun sys store calls) (done : calls.foldlM (propStep sys) store = some after) : Exact after := by
  induction calls generalizing store with
  | nil => exact Option.some.inj done ▸ exact
  | cons call calls ih =>
    rw [List.foldlM_cons] at done
    obtain ⟨next, first, rest⟩ := Option.bind_eq_some_iff.mp done
    exact ih (exact.step clean.1 first) (clean.2 next first) rest

/-- In a run of clean calls every count is the number of entries that hold the reference, and
a cleanup leaves exactly the references and the data that some entry holds. -/
theorem property_counts_exact (sys : Platform) (calls : List PropCall) (store : PropertyStorage)
    (run : propRun sys calls = some store) (clean : CleanRun sys propertyStorageCreate calls) :
    (∀ id count, store.refs.lookup id = some count → count = holders store.entries id) ∧
      ∀ cleaned, propertyStorageCleanup store = some cleaned → ∀ id,
        (id ∈ cleaned.refs ↔ ∃ path, cleaned.entries.lookup path = some id) ∧
        (id ∈ cleaned.db ↔ ∃ path, cleaned.entries.lookup path = some id) := by
  have exact := Exact.create.run clean run
  constructor
  · intro id count found
    have := exact.counts id
    rwa [countOf, found] at this
  · intro cleaned success id
    obtain ⟨after, done, kept, held⟩ := exact.cleanup
    rw [success, Option.some.injEq] at done
    subst done
    exact ⟨held id, (kept.data id).trans (held id)⟩

def storedProp (value : UInt8) : PropMap := AList.insert (cstr "a") [value] ∅

/-- Two paths take a set and leave it. -/
def balancedCalls : List PropCall :=
  [.store (cstr "f") (storedProp 1), .store (cstr "g") (storedProp 1), .delete (cstr "f"), .delete (cstr "g")]

theorem property_counts_exact_balanced :
    ∃ store, propRun Platform.plain balancedCalls = some store ∧
      (∀ id count, store.refs.lookup id = some count → count = holders store.entries id) ∧
      ∀ cleaned, propertyStorageCleanup store = some cleaned → ∀ id,
        (id ∈ cleaned.refs ↔ ∃ path, cleaned.entries.lookup path = some id) ∧
        (id ∈ cleaned.db ↔ ∃ path, cleaned.entries.lookup path = some id) := by
  have clean : CleanRun Platform.plain propertyStorageCreate balancedCalls := by
    refine ⟨rfl, fun first done => ?_⟩
    cases done
    refine ⟨rfl, fun second done => ?_⟩
    cases done
    refine ⟨fun id found one other queued => ?_, fun third done => ?_⟩
    · cases queued
    · cases done
      refine ⟨fun id found one other queued => ?_, fun _ _ => trivial⟩
      cases queued
  obtain ⟨store, run⟩ : ∃ store, propRun Platform.plain balancedCalls = some store :=
    Option.isSome_iff_exists.mp (by decide)
  exact ⟨store, run, property_counts_exact Platform.plain balancedCalls store run clean⟩

/-- A path stored twice: nothing holds its first set any more, but the count stays at one and
no cleanup removes it. -/
theorem property_counts_overwritten :
    ¬ ∀ calls store, propRun Platform.plain calls = some store →
      (∀ id count, store.refs.lookup id = some count → count = holders store.entries id) ∧
        ∀ cleaned, propertyStorageCleanup store = some cleaned → ∀ id,
          (id ∈ cleaned.refs ↔ ∃ path, cleaned.entries.lookup path = some id) ∧
          (id ∈ cleaned.db ↔ ∃ path, cleaned.entries.lookup path = some id) := by
  intro claimed
  obtain ⟨store, run, count, holding⟩ : ∃ store,
      propRun Platform.plain [.store (cstr "f") (storedProp 1), .store (cstr "f") (storedProp 2)] = some store ∧
      store.refs.lookup (propHashSerialize (storedProp 1)) = some 1 ∧
      holders store.entries (propHashSerialize (storedProp 1)) = 0 := by
    refine ⟨_, rfl, ?_, ?_⟩ <;> decide
  have := (claimed _ store run).1 _ _ count
  rw [holding] at this
  cases this

end Rsvndump
