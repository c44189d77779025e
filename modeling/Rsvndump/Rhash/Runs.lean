import Mathlib.Data.Finset.Card
import Mathlib.Data.Finset.Range
import Rsvndump.Rhash.Ownership

/-! Runs on one table of rhash.c. -/

set_option autoImplicit false

namespace Rsvndump

open Library Library.Heap

/-- A call with pointers into memory; the order of a clearing is that of the iteration. -/
inductive RhashCall where
  | set (alloc : Allocator RhBlock) (key : Nat) (klen : Option Nat) (val : Option Nat) (vlen : Option Nat)
  | get (key : Nat) (klen : Option Nat)
  | clear (order : List AprEntry)

structure RhashState where
  heap : Heap RhBlock
  table : List AprEntry

/-- What a call meant, in bytes, and the value that was found. -/
inductive RhashEvent where
  | set (key : Bytes) (val : Option Bytes)
  | get (key : Bytes) (result : Option Bytes)
  | clear
  deriving DecidableEq

def rhashStep (st : RhashState) : RhashCall → Option (RhashEvent × RhashState)
  | .set alloc key klen val vlen => do
      let text ← readKey st.heap key klen
      let value ← val.elim (some none) fun p => (readVal st.heap p vlen).map some
      let (heap, table) ← rhashSet alloc st.heap st.table key klen val vlen
      some (.set text value, ⟨heap, table⟩)
  | .get key klen => do
      let text ← readKey st.heap key klen
      let found ← rhashGet st.heap st.table key klen
      let result ← found.elim (some none) fun v => (loadBytes st.heap v).map some
      some (.get text result, st)
  | .clear order => (rhashClear st.heap order).map fun (heap, table) => (.clear, ⟨heap, table⟩)

def rhashRun : RhashState → List RhashCall → Option (List RhashEvent × RhashState)
  | st, [] => some ([], st)
  | st, call :: calls => do
      let (event, st) ← rhashStep st call
      let (events, st) ← rhashRun st calls
      some (event :: events, st)

/-- The pointers of a call can be read, the value given is not the one stored
(which the code asserts), and there is memory for the copies. -/
def Callable (st : RhashState) : RhashCall → Prop
  | .set alloc key klen val vlen => (readKey st.heap key klen).isSome ∧ alloc.Succeeds ∧
      ∀ p, val = some p → (readVal st.heap p vlen).isSome ∧ rhashGet st.heap st.table key klen ≠ some (some p)
  | .get key klen => (readKey st.heap key klen).isSome
  | .clear order => order.Perm st.table

def CallableRun : RhashState → List RhashCall → Prop
  | _, [] => True
  | st, call :: calls => Callable st call ∧ ∀ event st', rhashStep st call = some (event, st') → CallableRun st' calls

/-! ## Maps -/

def RhashEvent.after (contents : Bytes → Option Bytes) : RhashEvent → Bytes → Option Bytes
  | .set key val => Function.update contents key val
  | .get _ _ => contents
  | .clear => fun _ => none

/-- Every value found is the one the map has for the key at that point. -/
def MapLike : (Bytes → Option Bytes) → List RhashEvent → Prop
  | _, [] => True
  | contents, event :: events => (∀ key result, event = .get key result → result = contents key) ∧
      MapLike (event.after contents) events

def RhashEvent.touches (key : Bytes) : RhashEvent → Prop
  | .set other _ => other = key
  | .get _ _ => False
  | .clear => True

def contentsOf (keys : List Bytes) (values : Bytes → Bytes) (key : Bytes) : Option Bytes :=
  if key ∈ keys then some (values key) else none

section Contents

variable {keys : List Bytes} {values : Bytes → Bytes} {text bytes : Bytes}

theorem contentsOf_replace (member : text ∈ keys) :
    contentsOf keys (Function.update values text bytes) = Function.update (contentsOf keys values) text (some bytes) := by
  funext key
  by_cases same : key = text
  · subst same
    simp [contentsOf, member]
  · simp [contentsOf, same]

theorem contentsOf_add : contentsOf (keys ++ [text]) (Function.update values text bytes) =
    Function.update (contentsOf keys values) text (some bytes) := by
  funext key
  by_cases same : key = text
  · subst same
    simp [contentsOf]
  · simp [contentsOf, same]

theorem contentsOf_erase (nodup : keys.Nodup) :
    contentsOf (keys.erase text) values = Function.update (contentsOf keys values) text none := by
  funext key
  by_cases same : key = text
  · subst same
    simp [contentsOf, nodup.mem_erase_iff]
  · simp [contentsOf, nodup.mem_erase_iff, same]

theorem contentsOf_absent (absent : text ∉ keys) :
    Function.update (contentsOf keys values) text none = contentsOf keys values := by
  rw [← show contentsOf keys values text = none by simp [contentsOf, absent], Function.update_eq_self]

end Contents

/-! ## Steps and runs -/

section Runs

variable {st : RhashState} {keys : List Bytes} {values : Bytes → Bytes} {own : Bytes → Finset Nat} {rest : Finset Nat}

/-- A callable call finds what it needs, and the table is a map afterwards. -/
theorem rhash_step {call : RhashCall} (owns : OwnsTable st.heap st.table keys values own rest) (callable : Callable st call) :
    ∃ event st' keys' values' own', rhashStep st call = some (event, st') ∧
      OwnsTable st'.heap st'.table keys' values' own' rest ∧
      contentsOf keys' values' = event.after (contentsOf keys values) ∧
      (∀ key result, event = .get key result → result = contentsOf keys values key) ∧
      Agrees st.heap st'.heap rest ∧
      ∀ key ∈ keys, ¬ event.touches key → key ∈ keys' ∧ own' key = own key ∧ Agrees st.heap st'.heap (own key) := by
  cases call with
  | set alloc key klen val vlen =>
    obtain ⟨readable, memory, source⟩ := callable
    obtain ⟨text, reads⟩ := Option.isSome_iff_exists.mp readable
    have noGet : ∀ value, ∀ key result, RhashEvent.set text value = .get key result → result = contentsOf keys values key := by
      rintro _ _ _ ⟨⟩
    cases val with
    | none =>
      -- what is deleted need not be there
      by_cases member : text ∈ keys
      · obtain ⟨heap', table', stored, owns', untouched⟩ := owns.delete alloc reads member vlen
        refine ⟨.set text none, ⟨heap', table'⟩, _, values, _, by simp [rhashStep, reads, stored], owns',
          contentsOf_erase owns.nodup, noGet none, untouched.foreign, ?_⟩
        intro other inside different
        have apart : other ≠ text := Ne.symm different
        exact ⟨owns.nodup.mem_erase_iff.mpr ⟨apart, inside⟩, Function.update_of_ne apart _ _, untouched.other inside apart⟩
      · have absent : rhashSet alloc st.heap st.table key klen none vlen = some (st.heap, st.table) := by
          simp [rhashSet, aprHashGet, reads, aprFind_absent owns.entries member]
        refine ⟨.set text none, st, keys, values, own, by simp [rhashStep, reads, absent], owns,
          (contentsOf_absent member).symm, noGet none, .refl _ _, ?_⟩
        exact fun other inside _ => ⟨inside, rfl, .refl _ _⟩
    | some p =>
      obtain ⟨given, other⟩ := source p rfl
      obtain ⟨bytes, readsVal⟩ := Option.isSome_iff_exists.mp given
      by_cases member : text ∈ keys
      · obtain ⟨heap', own', stored, owns', untouched⟩ := owns.set_present memory reads member readsVal other
        refine ⟨.set text (some bytes), ⟨heap', st.table⟩, keys, _, _, by simp [rhashStep, reads, readsVal, stored], owns',
          contentsOf_replace member, noGet (some bytes), untouched.foreign, ?_⟩
        intro other inside different
        have apart : other ≠ text := Ne.symm different
        exact ⟨inside, Function.update_of_ne apart _ _, untouched.other inside apart⟩
      · obtain ⟨heap', table', own', stored, owns', untouched⟩ := owns.set_absent memory reads member readsVal
        refine ⟨.set text (some bytes), ⟨heap', table'⟩, _, _, _, by simp [rhashStep, reads, readsVal, stored], owns',
          contentsOf_add, noGet (some bytes), untouched.foreign, ?_⟩
        intro other inside different
        have apart : other ≠ text := Ne.symm different
        exact ⟨List.mem_append_left _ inside, Function.update_of_ne apart _ _, untouched.other inside apart⟩
  | get key klen =>
    obtain ⟨text, reads⟩ := Option.isSome_iff_exists.mp callable
    by_cases member : text ∈ keys
    · obtain ⟨e, v, _, _, get, loads⟩ := owns.get_present reads member
      refine ⟨.get text (some (values text)), st, keys, values, own, ?_, owns, rfl, ?_, .refl _ _, ?_⟩
      · simp [rhashStep, reads, get, loads]
      · rintro _ _ ⟨⟩
        simp [contentsOf, member]
      · exact fun key inside _ => ⟨inside, rfl, .refl _ _⟩
    · refine ⟨.get text none, st, keys, values, own, ?_, owns, rfl, ?_, .refl _ _, ?_⟩
      · simp [rhashStep, reads, owns.get_absent reads member]
      · rintro _ _ ⟨⟩
        simp [contentsOf, member]
      · exact fun key inside _ => ⟨inside, rfl, .refl _ _⟩
  | clear order =>
    obtain ⟨heap', cleared, owns', kept⟩ := owns.clear callable
    refine ⟨.clear, ⟨heap', []⟩, [], values, own, ?_, owns', ?_, by simp, kept, ?_⟩
    · simp [rhashStep, cleared]
    · funext key
      simp [contentsOf, RhashEvent.after]
    · exact fun key _ untouched => absurd trivial untouched

theorem EntryAt.card {heap : Heap RhBlock} {e : AprEntry} {key value : Bytes} {blocks : Finset Nat}
    (entry : EntryAt heap e key value blocks) : blocks.card = 3 := by
  obtain ⟨v, _, _, rfl, apart, apart', apart''⟩ := entry.chunk
  exact Finset.card_eq_three.mpr ⟨e.val, e.key, v, apart'', apart, apart', rfl⟩

theorem OwnsTable.card {heap : Heap RhBlock} {table : List AprEntry} (owns : OwnsTable heap table keys values own rest) :
    ∀ key ∈ keys, (own key).card = 3 := by
  intro key member
  obtain ⟨e, _, entry⟩ := aprFind_present owns.entries member
  exact entry.card

variable (st) in
theorem rhash_run {calls : List RhashCall} (owns : OwnsTable st.heap st.table keys values own rest)
    (callable : CallableRun st calls) :
    ∃ events st' keys' values' own', rhashRun st calls = some (events, st') ∧
      OwnsTable st'.heap st'.table keys' values' own' rest ∧ MapLike (contentsOf keys values) events ∧
      contentsOf keys' values' = events.foldl (fun contents event => event.after contents) (contentsOf keys values) ∧
      Agrees st.heap st'.heap rest := by
  induction calls generalizing st keys values own with
  | nil => exact ⟨[], st, keys, values, own, rfl, owns, trivial, rfl, .refl _ _⟩
  | cons call calls ih =>
    obtain ⟨event, st1, keys1, values1, own1, stepped, owns1, contents1, found, kept, _⟩ := rhash_step owns callable.1
    obtain ⟨events, st2, keys2, values2, own2, ran, owns2, mapLike, contents2, kept'⟩ :=
      ih st1 owns1 (callable.2 event st1 stepped)
    rw [contents1] at mapLike contents2
    exact ⟨event :: events, st2, keys2, values2, own2, by simp [rhashRun, stepped, ran], owns2, ⟨found, mapLike⟩, contents2,
      kept.trans kept'⟩

variable (values own) in
theorem owns_empty {heap : Heap RhBlock} (live : ∀ a, heap a ≠ none ↔ a ∈ rest) :
    OwnsTable heap [] [] values own rest where
  entries := .nil
  nodup := List.nodup_nil
  shared := by
    constructor
    · intro i memberI j memberJ different
      simp only [owners, List.toFinset_nil, Finset.image_empty, insert_empty_eq, Finset.mem_singleton] at memberI memberJ
      exact absurd (memberI.trans memberJ.symm) different
    · simp [owners, ownedBy, live]

end Runs

/-! ## Main results -/

/-- The part of a run that is left. -/
theorem CallableRun.rest {st st' : RhashState} {before after : List RhashCall} {events : List RhashEvent}
    (callable : CallableRun st (before ++ after)) (ran : rhashRun st before = some (events, st')) : CallableRun st' after := by
  induction before generalizing st events with
  | nil =>
    cases ran
    exact callable
  | cons call before ih =>
    simp only [rhashRun, Option.bind_eq_bind, Option.bind_eq_some_iff] at ran
    obtain ⟨⟨event, st1⟩, stepped, ⟨later, st2⟩, ran, same⟩ := ran
    cases same
    exact ih (callable.2 event st1 stepped) ran

theorem CallableRun.start {st : RhashState} {before after : List RhashCall} (callable : CallableRun st (before ++ after)) :
    CallableRun st before := by
  induction before generalizing st with
  | nil => trivial
  | cons call before ih => exact ⟨callable.1, fun event st' stepped => ih (callable.2 event st' stepped)⟩

/-- The blocks of a key are kept until a call touches it. -/
theorem blocks_kept {st st' : RhashState} {keys : List Bytes} {values : Bytes → Bytes} {own : Bytes → Finset Nat}
    {rest : Finset Nat} {calls : List RhashCall} {events : List RhashEvent} {text : Bytes}
    (owns : OwnsTable st.heap st.table keys values own rest) (member : text ∈ keys) (callable : CallableRun st calls)
    (ran : rhashRun st calls = some (events, st')) (quiet : ∀ event ∈ events, ¬ event.touches text) :
    Agrees st.heap st'.heap (own text) := by
  induction calls generalizing st keys values own events with
  | nil =>
    cases ran
    exact .refl _ _
  | cons call calls ih =>
    obtain ⟨event, st1, keys1, values1, own1, stepped, owns1, _, _, _, kept⟩ := rhash_step owns callable.1
    simp only [rhashRun, stepped, Option.bind_eq_bind, Option.bind_some, Option.bind_eq_some_iff] at ran
    obtain ⟨⟨later, st2⟩, ran, same⟩ := ran
    cases same
    obtain ⟨member1, same, agrees⟩ := kept text member (quiet event (List.mem_cons_self ..))
    have agrees' := ih owns1 member1 (callable.2 event st1 stepped) ran fun event inside =>
      quiet event (List.mem_cons_of_mem _ inside)
    rw [same] at agrees'
    exact agrees.trans agrees'

/-- The first of a few even addresses at which nothing is allocated, or any other one. -/
noncomputable def firstFitAnswer (heap : Heap RhBlock) : Option Nat :=
  match [2, 4, 6, 8, 10, 12].find? fun a => (heap a).isNone with
  | some a => some a
  | none => open Classical in if free : ∃ a, heap a = none ∧ a ≠ 0 ∧ a % 2 = 0 then some free.choose else none

theorem firstFitAnswer_spec {heap : Heap RhBlock} {a : Nat} (answered : firstFitAnswer heap = some a) :
    heap a = none ∧ a ≠ 0 ∧ a % 2 = 0 := by
  rw [firstFitAnswer] at answered
  split at answered
  · rename_i found
    cases answered
    have member := List.mem_of_find?_eq_some found
    simp only [List.mem_cons, List.not_mem_nil, or_false] at member
    exact ⟨by simpa using List.find?_some found, by omega, by omega⟩
  · split at answered
    · rename_i free
      cases answered
      exact free.choose_spec
    · cases answered

noncomputable def firstFit : Allocator RhBlock where
  answer heap _ := firstFitAnswer heap
  unused answered := (firstFitAnswer_spec answered).1
  aligned answered := (firstFitAnswer_spec answered).2

theorem firstFit_succeeds : firstFit.Succeeds := by
  rintro heap size ⟨own, covers⟩ failed
  obtain ⟨n, inside⟩ := own.exists_nat_subset_range
  have outside : 2 * (n + 1) ∉ own := by
    intro member
    have bound := Finset.mem_range.mp (inside member)
    omega
  have free : ∃ a, heap a = none ∧ a ≠ 0 ∧ a % 2 = 0 :=
    ⟨2 * (n + 1), not_not.mp fun live => outside (covers _ live), by omega, by omega⟩
  simp only [firstFit, firstFitAnswer] at failed
  split at failed
  · cases failed
  · simp [free] at failed

/-- A key and a value of the program. -/
def callerHeap : Heap RhBlock := fun a =>
  if a = 101 then some (.data [107, 0]) else if a = 103 then some (.data [118, 0]) else none

theorem callerHeap_live (a : Nat) : callerHeap a ≠ none ↔ a ∈ ({101, 103} : Finset Nat) := by
  unfold callerHeap
  split
  · simp [*]
  · split <;> simp [*]

/-- Each of the two is stored under the other. -/
noncomputable def storingCalls : List RhashCall :=
  [.set firstFit 101 none (some 103) none, .set firstFit 103 none (some 101) none, .get 101 none]

theorem storingCalls_callable : CallableRun ⟨callerHeap, []⟩ storingCalls := by
  refine ⟨⟨by decide, firstFit_succeeds, ?_⟩, ?_⟩
  · rintro p ⟨⟩
    exact ⟨by decide, by decide⟩
  · intro event st' stepped
    cases stepped
    refine ⟨⟨by decide, firstFit_succeeds, ?_⟩, ?_⟩
    · rintro p ⟨⟩
      exact ⟨by decide, by decide⟩
    · intro event st' stepped
      cases stepped
      exact ⟨rfl, fun _ _ _ => trivial⟩

/-- A pointer from `rhash_get` keeps pointing to the value until the key is set or the table cleared. -/
theorem rhash_value_kept {heap : Heap RhBlock} {rest : Finset Nat} (live : ∀ a, heap a ≠ none ↔ a ∈ rest)
    (before after : List RhashCall) (callable : CallableRun ⟨heap, []⟩ (before ++ after)) {events later : List RhashEvent}
    {st st' : RhashState} (ran : rhashRun ⟨heap, []⟩ before = some (events, st)) {key v : Nat} {klen : Option Nat}
    {text : Bytes} (reads : readKey st.heap key klen = some text) (found : rhashGet st.heap st.table key klen = some (some v))
    (continued : rhashRun st after = some (later, st')) (quiet : ∀ event ∈ later, ¬ event.touches text) :
    ∃ value, loadBytes st.heap v = some value ∧ loadBytes st'.heap v = some value := by
  obtain ⟨_, _, keys, values, own, ran', owns, _⟩ :=
    rhash_run ⟨heap, []⟩ (owns_empty (fun _ => []) (fun _ => ∅) live) callable.start
  cases ran.symm.trans ran'
  by_cases member : text ∈ keys
  · obtain ⟨e, at', entry⟩ := aprFind_present owns.entries member
    obtain ⟨p, block, data, owned, _⟩ := entry.chunk
    have get : rhashGet st.heap st.table key klen = some (some p) := by
      simp [rhashGet, aprHashGet, reads, at', loadEntry, block]
    obtain rfl : p = v := by simpa using get.symm.trans found
    have kept := blocks_kept owns member (callable.rest ran) continued quiet p (by simp [owned])
    exact ⟨values text, by simp [loadBytes, data], by simp [loadBytes, kept, data]⟩
  · rw [owns.get_absent reads member] at found
    cases found

/-- After the first of the calls above. -/
def storedState : RhashState where
  heap := (((callerHeap.put 2 .uninitialized).put 4 (.data [107, 0])).put 6 (.data [118, 0])).put 2 (.entry 4 6)
  table := [⟨4, 1, 2⟩]

/-- After all of them. -/
def bothState : RhashState where
  heap := (((storedState.heap.put 8 .uninitialized).put 10 (.data [118, 0])).put 12 (.data [107, 0])).put 8 (.entry 10 12)
  table := [⟨4, 1, 2⟩, ⟨10, 1, 8⟩]

/-- The value found behind the first call is still there when the other one is stored. -/
theorem rhash_value_kept_short :
    rhashGet storedState.heap storedState.table 101 none = some (some 6) ∧
      ∃ value, loadBytes storedState.heap 6 = some value ∧ loadBytes bothState.heap 6 = some value :=
  have ran : rhashRun ⟨callerHeap, []⟩ [.set firstFit 101 none (some 103) none] =
      some ([.set [107] (some [118, 0])], storedState) := rfl
  have reads : readKey storedState.heap 101 none = some [107] := by decide
  have found : rhashGet storedState.heap storedState.table 101 none = some (some 6) := by decide
  have continued : rhashRun storedState [.set firstFit 103 none (some 101) none, .get 101 none] =
      some ([.set [118] (some [107, 0]), .get [107] (some [118, 0])], bothState) := rfl
  ⟨found, rhash_value_kept callerHeap_live [.set firstFit 101 none (some 103) none]
    [.set firstFit 103 none (some 101) none, .get 101 none] storingCalls_callable ran reads found continued
    (by simp [RhashEvent.touches])⟩

end Rsvndump
