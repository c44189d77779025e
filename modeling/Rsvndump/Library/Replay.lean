import Mathlib.Data.List.Induction
import Mathlib.Tactic.Common

/-! Runs of partial steps, and states rebuilt from numbered records.

`replay` visits consecutive record numbers; a store that keeps one record for
each version, with a full copy at the first number visited, rebuilds every
version this way.
-/

set_option autoImplicit false

namespace Library

variable {S A : Type}

def replay (step : S → Int → Option S) : Nat → Int → S → Option S
  | 0, _, s => some s
  | n + 1, r, s => (step s r).bind (replay step n (r + 1))

/-- The first record gives its version from any start; each later one gives the next version. -/
theorem replay_reaches {step : S → Int → Option S} {version : Int → S} {n : Nat} {lo : Int} {s : S}
    (first : step s lo = some (version lo))
    (next : ∀ r, lo < r → r ≤ lo + n → step (version (r - 1)) r = some (version r)) :
    replay step (n + 1) lo s = some (version (lo + n)) := by
  induction n generalizing lo s with
  | zero => simp [replay, first]
  | succ n ih =>
    rw [replay, first, Option.bind_some, ih]
    · congr 2
      push_cast
      omega
    · have after := next (lo + 1) (by omega) (by push_cast; omega)
      simpa using after
    · intro r above below
      exact next r (by omega) (by push_cast; omega)

theorem replay_total {step : S → Int → Option S} (total : ∀ s r, ∃ s', step s r = some s')
    (n : Nat) (lo : Int) (s : S) : ∃ s', replay step n lo s = some s' := by
  induction n generalizing lo s with
  | zero => exact ⟨s, rfl⟩
  | succ n ih =>
    obtain ⟨next, stepped⟩ := total s lo
    rw [replay, stepped]
    exact ih (lo + 1) next

theorem replay_congr {step step' : S → Int → Option S} {n : Nat} {lo : Int}
    (same : ∀ s r, lo ≤ r → r < lo + n → step s r = step' s r) (s : S) :
    replay step n lo s = replay step' n lo s := by
  induction n generalizing lo s with
  | zero => rfl
  | succ n ih =>
    rw [replay, replay, same s lo (by omega) (by push_cast; omega)]
    congr 1
    funext s'
    exact ih (fun s r above below => same s r (by omega) (by push_cast; omega)) s'

/-! ## Runs -/

def runCalls (step : S → A → Option S) (s : S) (calls : List A) : Option S := calls.foldlM step s

@[simp] theorem runCalls_nil (step : S → A → Option S) (s : S) : runCalls step s [] = some s := rfl

theorem runCalls_append (step : S → A → Option S) (s : S) (calls more : List A) :
    runCalls step s (calls ++ more) = (runCalls step s calls).bind (runCalls step · more) := by
  simp [runCalls, List.foldlM_append]

theorem runCalls_snoc (step : S → A → Option S) (s : S) (calls : List A) (last : A) :
    runCalls step s (calls ++ [last]) = (runCalls step s calls).bind (step · last) := by
  rw [runCalls_append]
  congr 1
  funext s'
  simp [runCalls]

/-- Every call of a run is allowed in the state it is made in. -/
def AllowedRun (step : S → A → Option S) (allowed : S → A → Prop) : S → List A → Prop
  | _, [] => True
  | s, a :: calls => allowed s a ∧ ∀ next ∈ step s a, AllowedRun step allowed next calls

instance AllowedRun.decidable {step : S → A → Option S} {allowed : S → A → Prop} [∀ s a, Decidable (allowed s a)] :
    ∀ s calls, Decidable (AllowedRun step allowed s calls)
  | _, [] => inferInstanceAs (Decidable True)
  | s, a :: calls =>
    have (next : S) : Decidable (AllowedRun step allowed next calls) := decidable next calls
    inferInstanceAs (Decidable (allowed s a ∧ ∀ next ∈ step s a, AllowedRun step allowed next calls))

theorem allowedRun_snoc {step : S → A → Option S} {allowed : S → A → Prop} {s : S} {calls : List A} {last : A} :
    AllowedRun step allowed s (calls ++ [last]) ↔
      AllowedRun step allowed s calls ∧ ∀ mid, runCalls step s calls = some mid → allowed mid last := by
  induction calls generalizing s with
  | nil => simp [AllowedRun]
  | cons a calls ih =>
    simp only [List.cons_append, AllowedRun, ih, runCalls, List.foldlM_cons, Option.bind_eq_bind, Option.mem_def]
    cases step s a with
    | none => simp
    | some next => simp [and_assoc]

/-- A run of a step relation over a list of items. -/
inductive Runs (step : A → S → S → Prop) : List A → S → S → Prop
  | nil (s : S) : Runs step [] s s
  | cons {a : A} {items : List A} {s mid s' : S} : step a s mid → Runs step items mid s' → Runs step (a :: items) s s'

theorem Runs.append {step : A → S → S → Prop} {items more : List A} {s mid s' : S} (first : Runs step items s mid)
    (second : Runs step more mid s') : Runs step (items ++ more) s s' := by
  induction first with
  | nil s => exact second
  | cons stepped _ ih => exact .cons stepped (ih second)

theorem Runs.single {step : A → S → S → Prop} {a : A} {s s' : S} (stepped : step a s s') : Runs step [a] s s' :=
  .cons stepped (.nil s')

theorem Runs.split {step : A → S → S → Prop} {items more : List A} {s s' : S} (runs : Runs step (items ++ more) s s') :
    ∃ mid, Runs step items s mid ∧ Runs step more mid s' := by
  induction items generalizing s with
  | nil => exact ⟨s, .nil s, runs⟩
  | cons a items ih =>
    cases runs with
    | cons stepped rest =>
      obtain ⟨mid, first, second⟩ := ih rest
      exact ⟨mid, .cons stepped first, second⟩

/-- Steps that have one result make runs that have one. -/
theorem Runs.unique {step : A → S → S → Prop} (deterministic : ∀ a s t t', step a s t → step a s t' → t = t') {items : List A}
    {s t t' : S} (first : Runs step items s t) (second : Runs step items s t') : t = t' := by
  induction first with
  | nil s =>
    cases second with
    | nil => rfl
  | cons stepped _ ih =>
    cases second with
    | cons stepped' rest =>
      rw [deterministic _ _ _ _ stepped' stepped] at rest
      exact ih rest

/-- What no step brings about is not brought about by a run. -/
theorem Runs.keeps {step : A → S → S → Prop} {holds : S → Prop} {items : List A}
    (kept : ∀ a ∈ items, ∀ s t, step a s t → holds s → holds t) {s s' : S} (runs : Runs step items s s') (start : holds s) :
    holds s' := by
  induction runs with
  | nil => exact start
  | cons stepped _ ih =>
    exact ih (fun a member => kept a (List.mem_cons_of_mem _ member)) (kept _ List.mem_cons_self _ _ stepped start)

/-- Each item of a list holds after those before it. -/
def HoldsAlong (holds : List A → A → Prop) : List A → List A → Prop
  | _, [] => True
  | before, a :: items => holds before a ∧ HoldsAlong holds (before ++ [a]) items

theorem holdsAlong_append {holds : List A → A → Prop} {before items more : List A} :
    HoldsAlong holds before (items ++ more) ↔ HoldsAlong holds before items ∧ HoldsAlong holds (before ++ items) more := by
  induction items generalizing before with
  | nil => simp [HoldsAlong]
  | cons a items ih =>
    rw [List.cons_append, HoldsAlong, HoldsAlong, ih, and_assoc, List.append_assoc]
    rfl

theorem holdsAlong_iff {holds : List A → A → Prop} {before items : List A} :
    HoldsAlong holds before items ↔ ∀ front a back, items = front ++ a :: back → holds (before ++ front) a := by
  constructor
  · rintro along front a back rfl
    exact (holdsAlong_append.mp along).2.1
  · intro each
    induction items generalizing before with
    | nil => trivial
    | cons a items ih =>
      have first : holds (before ++ []) a := each [] a items rfl
      rw [List.append_nil] at first
      refine ⟨first, ih fun front b back split => ?_⟩
      rw [List.append_assoc]
      exact each (a :: front) b back (by rw [split]; rfl)

/-- The last item of a kind stands at or behind any of the kind. -/
theorem mem_of_last {front back front' back' : List A} {last a : A} (split : front ++ last :: back = front' ++ a :: back')
    (none : a ∉ back) : last ∈ a :: back' := by
  rcases List.append_eq_append_iff.mp split with ⟨mid, -, rest⟩ | ⟨mid, -, rest⟩
  · cases mid with
    | nil =>
      rw [List.nil_append] at rest
      rw [← rest]
      exact List.mem_cons_self
    | cons m mid =>
      obtain ⟨rfl, rfl⟩ := List.cons.inj rest
      exact absurd (by simp) none
  · rw [rest]
    simp

/-- An invariant on the history of a run: every admissible run completes and satisfies it. -/
theorem runCalls_invariant {step : S → A → Option S} {start : S} {legal : List A → Prop}
    {inv : List A → S → Prop} (init : inv [] start)
    (shorter : ∀ calls last, legal (calls ++ [last]) → legal calls)
    (next : ∀ calls last s, legal (calls ++ [last]) → inv calls s →
      ∃ s', step s last = some s' ∧ inv (calls ++ [last]) s')
    (calls : List A) (ok : legal calls) : ∃ s, runCalls step start calls = some s ∧ inv calls s := by
  induction calls using List.reverseRecOn with
  | nil => exact ⟨start, rfl, init⟩
  | append_singleton calls last ih =>
    obtain ⟨s, ran, holds⟩ := ih (shorter calls last ok)
    obtain ⟨s', stepped, holds'⟩ := next calls last s ok holds
    exact ⟨s', by rw [runCalls_snoc, ran, Option.bind_some, stepped], holds'⟩

end Library
