import Mathlib.Data.List.Induction
import Mathlib.Tactic.Common

/-! Taking computations with errors apart. -/

set_option autoImplicit false

namespace Library

variable {E A B : Type}

/-- A computation that fails with `e` when there is no value. -/
def orError (e : E) : Option A → Except E A
  | some a => .ok a
  | none => .error e

@[simp] theorem orError_eq_ok {e : E} {x : Option A} {a : A} : orError e x = .ok a ↔ x = some a := by
  cases x <;> simp [orError]

theorem bind_eq_ok {x : Except E A} {f : A → Except E B} {b : B} :
    (x >>= f) = .ok b ↔ ∃ a, x = .ok a ∧ f a = .ok b := by
  cases x with
  | error e => simp [bind, Except.bind]
  | ok a => simp [bind, Except.bind]

@[simp] theorem ok_bind (a : A) (f : A → Except E B) : (Except.ok a >>= f) = f a := rfl

@[simp] theorem error_bind (e : E) (f : A → Except E B) : (Except.error e >>= f) = .error e := rfl

@[simp] theorem pure_eq_ok (a : A) : (pure a : Except E A) = .ok a := rfl

/-! ## Postconditions -/

/-- `holds` of the value that is returned, or `failed` of the error. -/
def Post (holds : A → Prop) (failed : E → Prop) : Except E A → Prop
  | .ok a => holds a
  | .error e => failed e

variable {holds : A → Prop} {failed : E → Prop}

@[simp] theorem post_ok (a : A) : Post holds failed (.ok a) ↔ holds a := Iff.rfl

@[simp] theorem post_error (e : E) : Post holds failed (.error e) ↔ failed e := Iff.rfl

theorem Post.bind {x : Except E A} {f : A → Except E B} {after : B → Prop} (first : Post holds failed x)
    (next : ∀ a, holds a → Post after failed (f a)) : Post after failed (x >>= f) := by
  cases x with
  | error e => exact first
  | ok a => exact next a first

theorem Post.mono {x : Except E A} {weaker : A → Prop} {failed' : E → Prop} (post : Post holds failed x)
    (value : ∀ a, x = .ok a → holds a → weaker a) (error : ∀ e, failed e → failed' e) :
    Post weaker failed' x := by
  cases x with
  | error e => exact error e post
  | ok a => exact value a rfl post

theorem Post.and {x : Except E A} {more : A → Prop} {failed' : E → Prop} (first : Post holds failed x)
    (second : Post more failed' x) : Post (fun a => holds a ∧ more a) (fun e => failed e ∧ failed' e) x := by
  cases x with
  | error e => exact ⟨first, second⟩
  | ok a => exact ⟨first, second⟩

/-- Nothing is said of errors. -/
theorem Post.both {x : Except E A} {more : A → Prop} (first : Post holds (fun _ => True) x)
    (second : Post more (fun _ => True) x) : Post (fun a => holds a ∧ more a) (fun _ => True) x := by
  cases x with
  | error e => trivial
  | ok a => exact ⟨first, second⟩

theorem Post.of_ok {x : Except E A} {a : A} (post : Post holds failed x) (same : x = .ok a) : holds a := by
  subst same
  exact post

theorem post_orError {e : E} {x : Option A} (found : ∀ a, x = some a → holds a) (missing : failed e) :
    Post holds failed (orError e x) := by
  cases x with
  | none => exact missing
  | some a => exact found a rfl

theorem post_orError_fails {e : E} {x : Option A} (missing : failed e) :
    Post (fun _ => True) failed (orError e x) :=
  post_orError (fun _ _ => trivial) missing

/-- A loop keeps what each of its rounds keeps. -/
theorem post_foldlM {step : A → B → Except E A} {items : List B} {a : A} (start : holds a)
    (round : ∀ a, ∀ b ∈ items, holds a → Post holds failed (step a b)) :
    Post holds failed (items.foldlM step a) := by
  induction items generalizing a with
  | nil => exact start
  | cons b items ih =>
    rw [List.foldlM_cons]
    apply (round a b List.mem_cons_self start).bind
    intro a' kept
    exact ih kept fun a b member => round a b (List.mem_cons_of_mem _ member)

/-- A loop whose rounds may look at what has been done before them. -/
theorem post_foldlM_split {step : A → B → Except E A} {items : List B} {a : A} {after : List B → A → Prop} (start : after [] a)
    (round : ∀ done b rest mid, items = done ++ b :: rest → done.foldlM step a = .ok mid → after done mid →
      Post (after (done ++ [b])) failed (step mid b)) : Post (after items) failed (items.foldlM step a) := by
  induction items using List.reverseRecOn with
  | nil => exact start
  | append_singleton init last ih =>
    have front : Post (after init) failed (init.foldlM step a) :=
      ih fun done b rest mid split => round done b (rest ++ [last]) mid (by rw [split]; simp)
    rw [List.foldlM_append]
    cases ran : init.foldlM step a with
    | error e =>
      rw [ran] at front
      exact front
    | ok mid =>
      rw [ran] at front
      have made := round init last [] mid rfl ran front
      cases ran' : step mid last with
      | error e =>
        rw [ran'] at made
        simpa [ran'] using made
      | ok final =>
        rw [ran'] at made
        simpa [ran'] using made

/-- A loop that gets through has made every round. -/
theorem foldlM_round {step : A → B → Except E A} {items : List B} {a a' : A} (ran : items.foldlM step a = .ok a') {b : B}
    (member : b ∈ items) : ∃ before after, step before b = .ok after := by
  induction items generalizing a with
  | nil => cases member
  | cons first items ih =>
    rw [List.foldlM_cons] at ran
    obtain ⟨mid, made, rest⟩ := bind_eq_ok.mp ran
    rcases List.mem_cons.mp member with rfl | member
    · exact ⟨a, mid, made⟩
    · exact ih rest member

theorem toOption_eq_some {x : Except E A} {a : A} : x.toOption = some a ↔ x = .ok a := by
  cases x <;> simp [Except.toOption]

theorem ok_of_any {result : Except E A} {holds : A → Bool} (found : result.toOption.any holds = true) :
    ∃ a, result = .ok a ∧ holds a = true := by
  cases result with
  | error e => cases found
  | ok a => exact ⟨a, rfl, found⟩

end Library
