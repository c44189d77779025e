import Mathlib.Data.List.Basic

/-! A cache of fixed size that replaces its entries in turn.

Entries are never invalidated, so coherence is a property of the keys that were
asked for: it is stated for the keys selected by a predicate.
-/

set_option autoImplicit false

namespace Library

variable {K V : Type}

structure Fifo (K V : Type) where
  entries : List (K × V)
  index : Nat

/-- `size` slots that hold a key no request uses. -/
def Fifo.init (size : Nat) (key : K) (value : V) : Fifo K V := ⟨List.replicate size (key, value), 0⟩

def Fifo.find? [DecidableEq K] (cache : Fifo K V) (key : K) : Option V :=
  (cache.entries.find? fun entry => entry.1 = key).map Prod.snd

/-- Overwrite the slot whose turn it is and move on. -/
def Fifo.put (cache : Fifo K V) (key : K) (value : V) : Fifo K V where
  entries := cache.entries.set cache.index (key, value)
  index := if cache.index + 1 ≥ cache.entries.length then 0 else cache.index + 1

/-- The entries with a selected key hold the value that `compute` has for it. -/
def Fifo.Coherent (cache : Fifo K V) (selected : K → Prop) (compute : K → Option V) : Prop :=
  ∀ entry ∈ cache.entries, selected entry.1 → compute entry.1 = some entry.2

variable {selected : K → Prop} {compute : K → Option V}

theorem Fifo.Coherent.find [DecidableEq K] {cache : Fifo K V} (coherent : cache.Coherent selected compute)
    {key : K} {value : V} (hit : cache.find? key = some value) (asked : selected key) :
    compute key = some value := by
  obtain ⟨entry, found, rfl⟩ := Option.map_eq_some_iff.mp hit
  have same : entry.1 = key := by simpa using List.find?_some found
  subst same
  exact coherent entry (List.mem_of_find?_eq_some found) asked

theorem Fifo.Coherent.mono {cache : Fifo K V} (coherent : cache.Coherent selected compute)
    {selected' : K → Prop} {compute' : K → Option V}
    (same : ∀ entry ∈ cache.entries, selected' entry.1 → selected entry.1 ∧ compute' entry.1 = compute entry.1) :
    cache.Coherent selected' compute' := by
  intro entry member asked
  obtain ⟨before, equal⟩ := same entry member asked
  rw [equal]
  exact coherent entry member before

end Library
