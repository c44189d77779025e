import Mathlib.Data.Set.Basic

/-! Sets changed by a list of overwrites.

An overwrite removes some elements and then adds some. What becomes of an
element is decided by the last overwrite that touches it, so that only the order
of those which touch the same element is of any importance.
-/

set_option autoImplicit false

namespace Library

variable {A K : Type}

structure Overwrite (A : Type) where
  removed : Set A
  added : Set A

namespace Overwrite

def apply (s : Set A) (o : Overwrite A) : Set A := {x | x ∈ o.added ∨ (x ∈ s ∧ x ∉ o.removed)}

def run (overwrites : List (Overwrite A)) (s : Set A) : Set A := overwrites.foldl apply s

def Touches (o : Overwrite A) (x : A) : Prop := x ∈ o.removed ∨ x ∈ o.added

variable {o : Overwrite A} {overwrites : List (Overwrite A)} {s s' : Set A} {x : A}

@[simp] theorem mem_apply : x ∈ apply s o ↔ x ∈ o.added ∨ (x ∈ s ∧ x ∉ o.removed) := Iff.rfl

@[simp] theorem run_nil : run [] s = s := rfl

@[simp] theorem run_cons : run (o :: overwrites) s = run overwrites (apply s o) := rfl

theorem run_append (overwrites more : List (Overwrite A)) (s : Set A) :
    run (overwrites ++ more) s = run more (run overwrites s) :=
  List.foldl_append

theorem mem_apply_untouched (untouched : ¬ o.Touches x) : x ∈ apply s o ↔ x ∈ s := by
  rw [Touches, not_or] at untouched
  simp [untouched]

theorem mem_apply_touched (touched : o.Touches x) : x ∈ apply s o ↔ x ∈ o.added := by
  rw [mem_apply]
  constructor
  · rintro (added | ⟨-, kept⟩)
    · exact added
    · exact touched.resolve_left kept
  · exact .inl

/-- The result for an element is fixed, or it is what it was at the beginning. -/
theorem mem_run_cases (overwrites : List (Overwrite A)) (x : A) :
    (∀ s s', x ∈ run overwrites s ↔ x ∈ run overwrites s') ∨ ∀ s, x ∈ run overwrites s ↔ x ∈ s := by
  induction overwrites with
  | nil => exact .inr fun _ => Iff.rfl
  | cons o overwrites ih =>
    rcases ih with fixed | kept
    · exact .inl fun s s' => fixed _ _
    by_cases touched : o.Touches x
    · left
      intro s s'
      rw [run_cons, run_cons, kept, kept, mem_apply_touched touched, mem_apply_touched touched]
    · right
      intro s
      rw [run_cons, kept, mem_apply_untouched touched]

/-- A start may be exchanged for one that has the element as this one or as the result does. -/
theorem mem_run_of_agree (agree : (x ∈ s' ↔ x ∈ s) ∨ (x ∈ s' ↔ x ∈ run overwrites s)) :
    x ∈ run overwrites s' ↔ x ∈ run overwrites s := by
  rcases mem_run_cases overwrites x with fixed | kept
  · exact fixed _ _
  · rw [kept s', kept s]
    rw [kept s, or_self] at agree
    exact agree

/-- The last overwrite that touches an element decides on it. -/
theorem mem_run_last (change : K → Overwrite A) (keys : List K) (s : Set A) (x : A) :
    (∀ k ∈ keys, ¬ (change k).Touches x) ∧ (x ∈ run (keys.map change) s ↔ x ∈ s) ∨
      ∃ front k back, keys = front ++ k :: back ∧ (change k).Touches x ∧ (∀ k' ∈ back, ¬ (change k').Touches x) ∧
        (x ∈ run (keys.map change) s ↔ x ∈ (change k).added) := by
  induction keys generalizing s with
  | nil => exact .inl ⟨by simp, Iff.rfl⟩
  | cons k keys ih =>
    rw [List.map_cons, run_cons]
    rcases ih (apply s (change k)) with ⟨none, same⟩ | ⟨front, k', back, rfl, touches, last, same⟩
    · by_cases touched : (change k).Touches x
      · exact .inr ⟨[], k, keys, rfl, touched, none, same.trans (mem_apply_touched touched)⟩
      · refine .inl ⟨?_, same.trans (mem_apply_untouched touched)⟩
        rw [List.forall_mem_cons]
        exact ⟨touched, none⟩
    · exact .inr ⟨k :: front, k', back, rfl, touches, last, same⟩

/-- An element that gets lost is removed by some overwrite, and later ones do not touch it. -/
theorem exists_removed (change : K → Overwrite A) {keys : List K} {s : Set A} {x : A} (before : x ∈ s)
    (after : x ∉ run (keys.map change) s) :
    ∃ front k back, keys = front ++ k :: back ∧ x ∈ (change k).removed ∧ x ∉ (change k).added ∧
      ∀ k' ∈ back, ¬ (change k').Touches x := by
  rcases mem_run_last change keys s x with ⟨-, same⟩ | ⟨front, k, back, split, touches, last, same⟩
  · exact absurd (same.mpr before) after
  · have lost : x ∉ (change k).added := fun added => after (same.mpr added)
    exact ⟨front, k, back, split, touches.resolve_right lost, lost, last⟩

/-- Overwrites that do not touch an element can be left out. -/
theorem mem_run_filter (change : K → Overwrite A) (p : K → Bool) (untouched : ∀ k, p k = false → ¬ (change k).Touches x)
    (keys : List K) : x ∈ run (keys.map change) s ↔ x ∈ run ((keys.filter p).map change) s := by
  induction keys generalizing s with
  | nil => exact Iff.rfl
  | cons k keys ih =>
    rw [List.map_cons, run_cons, List.filter_cons]
    split
    · rw [List.map_cons, run_cons]
      exact ih
    · next skipped =>
      rw [← ih]
      apply mem_run_of_agree
      exact .inl (mem_apply_untouched (untouched k (Bool.eq_false_iff.mpr skipped)))

/-- Two orders of the same overwrites have the same result if they agree on the overwrites that
touch a common element. -/
theorem run_eq_of_perm (change : K → Overwrite A) (touches : K → A → Bool)
    (covers : ∀ k x, touches k x = false → ¬ (change k).Touches x) {before : K → K → Prop}
    (antisymm : ∀ k k' x, touches k x → touches k' x → before k k' → before k' k → k = k') {keys keys' : List K}
    (perm : keys.Perm keys') (sorted : ∀ x, (keys.filter (touches · x)).Pairwise before)
    (sorted' : ∀ x, (keys'.filter (touches · x)).Pairwise before) :
    run (keys.map change) s = run (keys'.map change) s := by
  ext x
  rw [mem_run_filter change (touches · x) (covers · x), mem_run_filter change (touches · x) (covers · x) keys']
  have same : keys.filter (touches · x) = keys'.filter (touches · x) := by
    refine List.Perm.eq_of_pairwise (fun k k' member member' => ?_) (sorted x) (sorted' x) (perm.filter _)
    exact antisymm k k' x (List.mem_filter.mp member).2 (List.mem_filter.mp member').2
  rw [same]

end Overwrite

end Library
