import Rsvndump.Delta.Properties
import Rsvndump.Delta.TempFiles

/-! What a deleted entry leaves behind (`de_delete_entry`).

The hash of the local copies drives the loop over the children, so a child without
a local copy keeps its properties. The names of the copies are not handed out by
`rhash_this`, and what is removed are the files, if any, whose names are read instead.
-/

set_option autoImplicit false

namespace Rsvndump

open Library

variable {sys : Platform} {baton : DeBaton}

/-- The reference of every entry is alive. -/
def Held (store : PropertyStorage) : Prop := ∀ q id, store.entries.lookup q = some id → (store.refs.lookup id).isSome

/-- The entries for some paths are removed; the contents stay until the next cleanup. -/
structure Dropped (removed : CString → Prop) [DecidablePred removed] (store after : PropertyStorage) : Prop where
  held : Held after
  db : after.db = store.db
  entries : ∀ q, after.entries.lookup q = if removed q then none else store.entries.lookup q

theorem dereference_drops {store : PropertyStorage} (held : Held store) {path : CString} {id : Digest}
    (found : store.entries.lookup path = some id) :
    ∃ after, dereference store path id = some after ∧ Dropped (· = path) store after := by
  obtain ⟨count, counted⟩ := Option.isSome_iff_exists.mp (held path id found)
  have entries : ∀ q, (store.entries.erase path).lookup q = if q = path then none else store.entries.lookup q := by
    intro q
    by_cases same : q = path
    · rw [if_pos same, same, AList.lookup_erase]
    · rw [if_neg same, AList.lookup_erase_ne same]
  simp only [dereference, counted, Option.bind_eq_bind, Option.bind_some]
  refine ⟨_, rfl, fun q other found' => ?_, rfl, entries⟩
  have before : store.entries.lookup q = some other := by
    rw [entries q] at found'
    split at found'
    · cases found'
    · exact found'
  by_cases same : other = id
  · rw [same, AList.lookup_insert]
    rfl
  · rw [AList.lookup_insert_ne same]
    exact held q other before

theorem propertyDelete_drops {store : PropertyStorage} (held : Held store) (path : CString) :
    ∃ after, propertyDelete store path = some after ∧ Dropped (· = path) store after := by
  cases found : store.entries.lookup path with
  | none =>
    refine ⟨store, by rw [propertyDelete, found], held, rfl, fun q => ?_⟩
    split
    · next same => rw [same, found]
    · rfl
  | some id =>
    rw [propertyDelete, found]
    exact dereference_drops held found

theorem foldlM_propertyDelete_drops (keys : List CString) {store : PropertyStorage} (held : Held store) :
    ∃ after, keys.foldlM propertyDelete store = some after ∧ Dropped (· ∈ keys) store after := by
  induction keys generalizing store with
  | nil => exact ⟨store, rfl, held, rfl, fun q => by rw [if_neg List.not_mem_nil]⟩
  | cons key keys ih =>
    obtain ⟨mid, first, dropped⟩ := propertyDelete_drops held key
    obtain ⟨after, rest, dropped'⟩ := ih dropped.held
    refine ⟨after, by rw [List.foldlM_cons, first]; exact rest, dropped'.held, dropped'.db.trans dropped.db, fun q => ?_⟩
    rw [dropped'.entries, dropped.entries]
    by_cases same : q = key
    · simp [same]
    · simp [same]

/-- The state without what is cached for the paths below a deleted one, and without the properties of the path itself. -/
structure ForgetsSubtree (path : CString) (st st' : DeltaState sys) : Prop where
  texts : ∀ q, st'.deltaHash.lookup q = if isChild path q then none else st.deltaHash.lookup q
  checksums : ∀ q, st'.md5Hash.lookup q = if isChild path q then none else st.md5Hash.lookup q
  props : ∀ q, st'.propStore.entries.lookup q = if q = path ∨ isChild path q then none else st.propStore.entries.lookup q
  contents : st'.propStore.db = st.propStore.db
  removed : ∀ q name, isChild path q → st.deltaHash.lookup q = some name → st'.files.content name = none
  kept : ∀ name, (∀ q, isChild path q → st.deltaHash.lookup q ≠ some name) → st'.files.content name = st.files.content name

/-- A name that is read for a child without being set. -/
def UnsetName (unset : CString → Option Nat) (path : CString) (st : DeltaState sys) (name : Nat) : Prop :=
  ∃ q, isChild path q ∧ (st.deltaHash.lookup q).isSome ∧ unset q = some name

/-- The children with properties have local copies, and as far as they exist, these copies are the files whose names are
read. -/
structure ChildrenCovered (unset : CString → Option Nat) (path : CString) (st : DeltaState sys) : Prop where
  props : ∀ q, isChild path q → (st.propStore.entries.lookup q).isSome → (st.deltaHash.lookup q).isSome
  files : ∀ name, st.files.content name ≠ none →
    (UnsetName unset path st name ↔ ∃ q, isChild path q ∧ st.deltaHash.lookup q = some name)

theorem content_remove (names : List Nat) (files : TempFiles) (name : Nat) :
    (names.foldl TempFiles.remove files).content name = if name ∈ names then none else files.content name := by
  induction names generalizing files with
  | nil => simp
  | cons first names ih =>
    rw [List.foldl_cons, ih]
    by_cases same : name = first
    · simp [same, TempFiles.remove]
    · simp [same, TempFiles.remove]

theorem unsetName_iff (unset : CString → Option Nat) (path : CString) (st : DeltaState sys) (name : Nat) :
    UnsetName unset path st name ↔ name ∈ (st.deltaHash.keys.filter (isChild path)).filterMap unset := by
  simp only [UnsetName, List.mem_filterMap, List.mem_filter, ← AList.mem_keys, AList.lookup_isSome]
  refine exists_congr fun q => ?_
  rw [← and_assoc, @and_comm (isChild path q = true)]

/-- What the callback does to the stores. -/
theorem deDeleteEntry_stores {st : DeltaState sys} (unset : CString → Option Nat) (held : Held st.propStore) (parent : DeNode)
    (path : CString) :
    ∃ node st', deDeleteEntryWith unset baton parent path st = .ok (node, st') ∧
      st'.deltaHash = eraseChildren st.deltaHash path ∧ st'.md5Hash = eraseChildren st.md5Hash path ∧
      st'.files = ((st.deltaHash.keys.filter (isChild path)).filterMap unset).foldl TempFiles.remove st.files ∧
      Dropped (fun q => q = path ∨ q ∈ st.deltaHash.keys.filter (isChild path)) st.propStore st'.propStore := by
  obtain ⟨mid, children, dropped⟩ := foldlM_propertyDelete_drops (st.deltaHash.keys.filter (isChild path)) held
  obtain ⟨after, own, dropped'⟩ := propertyDelete_drops dropped.held path
  have both : Dropped (fun q => q = path ∨ q ∈ st.deltaHash.keys.filter (isChild path)) st.propStore after := by
    refine ⟨dropped'.held, dropped'.db.trans dropped.db, fun q => ?_⟩
    rw [dropped'.entries, dropped.entries]
    by_cases same : q = path
    · simp [same]
    · simp [same]
  simp only [deDeleteEntryWith, children, own, orError, ok_bind]
  by_cases dry : baton.opts.initialDryRun = true
  · rw [if_pos dry]
    exact ⟨_, _, rfl, rfl, rfl, rfl, both⟩
  · rw [if_neg dry]
    exact ⟨_, _, rfl, rfl, rfl, rfl, both⟩

/-- The callback forgets exactly the subtree just when the children are covered. -/
theorem deDeleteEntry_forgets {st : DeltaState sys} (unset : CString → Option Nat) (held : Held st.propStore) (parent : DeNode)
    (path : CString) :
    ∃ node st', deDeleteEntryWith unset baton parent path st = .ok (node, st') ∧
      (ForgetsSubtree path st st' ↔ ChildrenCovered unset path st) := by
  obtain ⟨node, st', ran, texts, checksums, files, dropped⟩ := @deDeleteEntry_stores sys baton st unset held parent path
  refine ⟨node, st', ran, ?_⟩
  have listed : ∀ q, q ∈ st.deltaHash.keys.filter (isChild path) ↔ (st.deltaHash.lookup q).isSome ∧ isChild path q := by
    intro q
    rw [List.mem_filter, ← AList.mem_keys, AList.lookup_isSome]
  have content : ∀ name, UnsetName unset path st name ∧ st'.files.content name = none ∨
      ¬ UnsetName unset path st name ∧ st'.files.content name = st.files.content name := by
    intro name
    rw [files, content_remove, unsetName_iff]
    by_cases read : name ∈ (st.deltaHash.keys.filter (isChild path)).filterMap unset
    · exact .inl ⟨read, if_pos read⟩
    · exact .inr ⟨read, if_neg read⟩
  constructor
  · intro forgets
    constructor
    · intro q child entry
      have gone := forgets.props q
      rw [if_pos (.inr child), dropped.entries] at gone
      split at gone
      · next either =>
        rcases either with rfl | member
        · exact absurd (List.IsPrefix.length_le (List.isPrefixOf_iff_prefix.mp child)) (by simp)
        · exact ((listed q).mp member).1
      · rw [gone] at entry
        cases entry
    · intro name present
      constructor
      · intro read
        by_contra none
        simp only [not_exists, not_and] at none
        rcases content name with ⟨-, gone⟩ | ⟨unread, -⟩
        · exact present ((forgets.kept name none).symm.trans gone)
        · exact unread read
      · rintro ⟨q, child, found⟩
        rcases content name with ⟨read, -⟩ | ⟨-, same⟩
        · exact read
        · exact absurd (same.symm.trans (forgets.removed q name child found)) present
  · intro covered
    refine ⟨fun q => by rw [texts, lookup_eraseChildren], fun q => by rw [checksums, lookup_eraseChildren], fun q => ?_,
      dropped.db, fun q name child found => ?_, fun name other => ?_⟩
    · rw [dropped.entries]
      by_cases own : q = path
      · rw [if_pos (.inl own), if_pos (.inl own)]
      by_cases child : isChild path q = true
      · rw [if_pos (show q = path ∨ isChild path q = true from .inr child)]
        cases entry : st.propStore.entries.lookup q with
        | none => exact ite_self none
        | some id => exact if_pos (.inr ((listed q).mpr ⟨covered.props q child (by rw [entry]; rfl), child⟩))
      · rw [if_neg (not_or.mpr ⟨own, child⟩), if_neg]
        exact not_or.mpr ⟨own, fun member => child ((listed q).mp member).2⟩
    · rcases content name with ⟨-, gone⟩ | ⟨unread, same⟩
      · exact gone
      · rw [same]
        by_contra present
        exact unread ((covered.files name present).mpr ⟨q, child, found⟩)
    · rcases content name with ⟨read, gone⟩ | ⟨-, same⟩
      · rw [gone]
        by_contra present
        obtain ⟨q, child, found⟩ := (covered.files name (Ne.symm present)).mp read
        exact other q child found
      · exact same

/-! A directory `a` with properties and a file in it that has some, too, and a file beside them. -/

def coveredDirectory : DeltaState .plain where
  repo := .create
  propStore := [cstr "a", cstr "a/f", cstr "c"].foldl (fun store q => propertyStore .plain store q (oneProp "k"))
    propertyStorageCreate
  deltaHash := AList.insert (cstr "a/f") 0 (AList.singleton (cstr "c") 1)
  md5Hash := AList.insert (cstr "a/f") zeroDigest (AList.singleton (cstr "c") zeroDigest)
  files := ⟨fun name => if name < 2 then some [49] else none, 2⟩
  dumpedEntries := ∅
  out := []

theorem held_of_entries {store : PropertyStorage}
    (all : ∀ e ∈ store.entries.entries, (store.refs.lookup e.2).isSome) : Held store :=
  fun q id found => all ⟨q, id⟩ (AList.mem_lookup_iff.mp found)

theorem coveredDirectory_child {q : CString} {name : Nat} (found : coveredDirectory.deltaHash.lookup q = some name)
    (child : isChild (cstr "a") q) : q = cstr "a/f" ∧ name = 0 := by
  have all : ∀ e ∈ coveredDirectory.deltaHash.entries, isChild (cstr "a") e.1 = true → e.1 = cstr "a/f" ∧ e.2 = 0 := by decide
  exact all ⟨q, name⟩ (AList.mem_lookup_iff.mp found) child

/-- The variable happens to hold the name of the file's local copy. -/
theorem deDeleteEntry_forgets_covered :
    ∃ node st', deDeleteEntryWith (fun _ => some 0) copyBaton deOpenRoot (cstr "a") coveredDirectory = .ok (node, st') ∧
      ForgetsSubtree (cstr "a") coveredDirectory st' ∧
      (st'.propStore.entries.keys, st'.deltaHash.keys, st'.md5Hash.keys) = ([cstr "c"], [cstr "c"], [cstr "c"]) ∧
      (st'.files.content 0, st'.files.content 1) = (none, some [49]) := by
  have held : Held coveredDirectory.propStore := held_of_entries (by decide)
  obtain ⟨node, st', ran, forgets⟩ := @deDeleteEntry_forgets _ copyBaton _ (fun _ => some 0) held deOpenRoot (cstr "a")
  refine ⟨node, st', ran, forgets.mpr ⟨?_, ?_⟩, ?_⟩
  · intro q child entry
    obtain ⟨id, found⟩ := Option.isSome_iff_exists.mp entry
    have all : ∀ e ∈ coveredDirectory.propStore.entries.entries, isChild (cstr "a") e.1 = true →
        (coveredDirectory.deltaHash.lookup e.1).isSome := by decide
    exact all ⟨q, id⟩ (AList.mem_lookup_iff.mp found) child
  · intro name _
    constructor
    · rintro ⟨q, child, -, read⟩
      exact ⟨cstr "a/f", by decide, by rw [← Option.some.inj read]; decide⟩
    · rintro ⟨q, child, found⟩
      exact ⟨q, child, by rw [found]; rfl, by rw [(coveredDirectory_child found child).2]⟩
  · cases ran
    exact ⟨by decide, by decide⟩

/-! A directory `a` with a subdirectory that has a property, and a file in it. -/

def filledDirectory : DeltaState .plain where
  repo := .create
  propStore := propertyStore .plain propertyStorageCreate (cstr "a/b") (oneProp "k")
  deltaHash := AList.singleton (cstr "a/f") 0
  md5Hash := AList.singleton (cstr "a/f") zeroDigest
  files := ⟨fun name => if name = 0 then some [49] else none, 1⟩
  dumpedEntries := ∅
  out := []

/-- With `a` deleted, the properties of `a/b` and the copy of `a/f` are still there. -/
theorem deDeleteEntry_children : ∃ node st', deDeleteEntry copyBaton deOpenRoot (cstr "a") filledDirectory = .ok (node, st') ∧
    (st'.propStore.entries.lookup (cstr "a/b")).isSome ∧ st'.deltaHash.lookup (cstr "a/f") = none ∧
    st'.files.content 0 = some [49] ∧ ¬ ForgetsSubtree (cstr "a") filledDirectory st' := by
  refine ⟨_, _, rfl, by decide, by decide, rfl, ?_⟩
  intro forgets
  have gone := forgets.removed (cstr "a/f") 0 (by decide) (by decide)
  cases gone

end Rsvndump
