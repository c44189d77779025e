import Mathlib.Data.List.Forall2
import Mathlib.Data.List.Infix
import Rsvndump.Library.CString

/-! Paths as sequences of names, their last separator and the renaming of their names. -/

set_option autoImplicit false

namespace Library

/-- A name in a directory. -/
def PlainName (name : CString) : Prop := name ≠ [] ∧ slash ∉ name

instance (name : CString) : Decidable (PlainName name) := inferInstanceAs (Decidable (_ ∧ _))

def joined : List CString → CString
  | [] => []
  | [name] => name
  | name :: next :: rest => name ++ slash :: joined (next :: rest)

theorem joined_eq_intercalate (names : List CString) : joined names = [slash].intercalate names := by
  induction names using joined.induct with
  | case1 => rfl
  | case2 name => simp [joined, List.intercalate]
  | case3 name next rest ih =>
    rw [joined, ih]
    simp [List.intercalate]

theorem splitOn_joined {names : List CString} (plain : ∀ name ∈ names, slash ∉ name) (some : names ≠ []) :
    (joined names).splitOn slash = names := by
  rw [joined_eq_intercalate]
  exact List.splitOn_intercalate slash plain some

theorem joined_cons (name : CString) {rest : List CString} (more : rest ≠ []) :
    joined (name :: rest) = name ++ slash :: joined rest := by
  cases rest with
  | nil => exact absurd rfl more
  | cons next rest => rfl

theorem joined_append {front rest : List CString} (some : front ≠ []) (more : rest ≠ []) :
    joined (front ++ rest) = joined front ++ slash :: joined rest := by
  induction front with
  | nil => exact absurd rfl some
  | cons name front ih =>
    cases front with
    | nil => exact joined_cons name more
    | cons next front =>
      rw [List.cons_append, joined_cons name (by simp), ih (List.cons_ne_nil _ _), joined_cons name (List.cons_ne_nil _ _)]
      simp

theorem joined_ne_nil {name : CString} {rest : List CString} (plain : PlainName name) : joined (name :: rest) ≠ [] := by
  cases rest with
  | nil => exact plain.1
  | cons next rest => simp [joined]

theorem joined_eq_nil {names : List CString} (plain : ∀ name ∈ names, PlainName name) : joined names = [] ↔ names = [] := by
  cases names with
  | nil => simp [joined]
  | cons name rest => simp [joined_ne_nil (plain name List.mem_cons_self)]

theorem joined_injective {names names' : List CString} (plain : ∀ name ∈ names, PlainName name)
    (plain' : ∀ name ∈ names', PlainName name) (same : joined names = joined names') : names = names' := by
  by_cases empty : names = []
  · subst empty
    exact ((joined_eq_nil plain').mp same.symm).symm
  · have some : names' ≠ [] := fun empty' => empty ((joined_eq_nil plain).mp (by rw [same, empty']; rfl))
    rw [← splitOn_joined (fun name member => (plain name member).2) empty, same,
      splitOn_joined (fun name member => (plain' name member).2) some]

/-- The first character of a path is not a separator. -/
theorem head_joined {names : List CString} (plain : ∀ name ∈ names, PlainName name) : (joined names).head? ≠ some slash := by
  cases names with
  | nil => simp [joined]
  | cons name rest =>
    have own := plain name List.mem_cons_self
    have front : name <+: joined (name :: rest) := by
      cases rest with
      | nil => exact List.prefix_rfl
      | cons next rest => exact ⟨_, rfl⟩
    obtain ⟨tail, split⟩ := front
    rw [← split]
    cases name with
    | nil => exact absurd rfl own.1
    | cons c name =>
      intro first
      cases first
      exact own.2 List.mem_cons_self

theorem length_le_joined (name : CString) (rest : List CString) : rest.length ≤ (joined (name :: rest)).length := by
  induction rest generalizing name with
  | nil => exact Nat.zero_le _
  | cons next rest ih =>
    have shorter := ih next
    rw [joined_cons name (List.cons_ne_nil _ _), List.length_append, List.length_cons, List.length_cons]
    omega

/-! ## Ancestors -/

/-- The name in front of the first separator and the rest behind it. -/
theorem split_first {name name' rest rest' : CString} (plain : slash ∉ name) (plain' : slash ∉ name')
    (same : name ++ slash :: rest = name' ++ slash :: rest') : name = name' ∧ rest = rest' := by
  rcases List.append_eq_append_iff.mp same with ⟨more, split, tail⟩ | ⟨more, split, tail⟩
  · cases more with
    | nil => exact ⟨by simpa using split.symm, by simpa using tail⟩
    | cons c more =>
      cases tail
      exact absurd (by simp [split]) plain'
  · cases more with
    | nil => exact ⟨by simpa using split, by simpa using tail.symm⟩
    | cons c more =>
      cases tail
      exact absurd (by simp [split]) plain

theorem isPrefix_of_joined {names names' : List CString} (plain : ∀ name ∈ names, PlainName name)
    (plain' : ∀ name ∈ names', PlainName name) {rest : CString}
    (same : joined names' = joined names ++ slash :: rest) : names <+: names' := by
  induction names generalizing names' with
  | nil => exact List.nil_prefix
  | cons name names ih =>
    have own := (plain name List.mem_cons_self).2
    cases names' with
    | nil => simp [joined] at same
    | cons name' names' =>
      have own' := (plain' name' List.mem_cons_self).2
      have longer : names' ≠ [] := by
        rintro rfl
        have member : slash ∈ joined [name'] := by simp [same]
        exact own' member
      rw [joined_cons name' longer] at same
      by_cases last : names = []
      · subst last
        obtain ⟨rfl, -⟩ := split_first own' own same
        exact ⟨names', rfl⟩
      · rw [joined_cons name last, List.append_assoc, List.cons_append] at same
        obtain ⟨rfl, deeper⟩ := split_first own' own same
        exact List.cons_prefix_cons.mpr ⟨rfl, ih (fun n member => plain n (List.mem_cons_of_mem _ member))
          (fun n member => plain' n (List.mem_cons_of_mem _ member)) deeper⟩

theorem below_joined {names names' : List CString} (plain : ∀ name ∈ names, PlainName name)
    (plain' : ∀ name ∈ names', PlainName name) : Below (joined names) (joined names') ↔ names <+: names' := by
  constructor
  · rintro (empty | same | ⟨rest, same⟩)
    · rw [(joined_eq_nil plain).mp empty]
      exact List.nil_prefix
    · rw [joined_injective plain' plain same]
    · rw [List.append_assoc, List.singleton_append] at same
      exact isPrefix_of_joined plain plain' same.symm
  · rintro ⟨more, rfl⟩
    by_cases root : names = []
    · simp [root, joined]
    · by_cases itself : more = []
      · simp [itself]
      · rw [joined_append root itself]
        exact below_slash _ _

/-! ## The last separator -/

/-- `strrchr(path, '/')`, as an index. -/
def lastSlash (path : CString) : Option Nat :=
  if slash ∈ path then some (path.length - 1 - path.reverse.idxOf slash) else none

/-- A path ends with a name. -/
theorem last_slash {path : CString} (member : slash ∈ path) : ∃ front name, path = front ++ slash :: name ∧ slash ∉ name := by
  induction path with
  | nil => cases member
  | cons c path ih =>
    by_cases later : slash ∈ path
    · obtain ⟨front, name, rfl, plain⟩ := ih later
      exact ⟨c :: front, name, rfl, plain⟩
    · obtain rfl : slash = c := (List.mem_cons.mp member).resolve_right later
      exact ⟨[], path, rfl, later⟩

@[simp] theorem lastSlash_append {front name : CString} (plain : slash ∉ name) :
    lastSlash (front ++ slash :: name) = some front.length := by
  have behind : (front ++ slash :: name).reverse.idxOf slash = name.length := by
    rw [List.reverse_append, List.reverse_cons, List.append_assoc, List.idxOf_append_of_notMem (by simpa using plain)]
    simp
  have member : slash ∈ front ++ slash :: name := by simp
  rw [lastSlash, if_pos member, behind, List.length_append, List.length_cons]
  congr 1
  omega

theorem lastSlash_eq_none {path : CString} : lastSlash path = none ↔ slash ∉ path := by
  unfold lastSlash
  split <;> simp_all

/-! ## Renaming -/

/-- A partial map that keeps names apart. -/
structure Renaming (m : CString → Option CString) : Prop where
  plain : ∀ {name image}, m name = some image → PlainName image
  injective : ∀ {name name' image}, m name = some image → m name' = some image → name = name'

/-- The images of a sequence of names. -/
def Renamed (m : CString → Option CString) (names images : List CString) : Prop :=
  List.Forall₂ (fun name image => m name = some image) names images

section
variable {m m' : CString → Option CString} {names images names' images' : List CString}

theorem Renamed.mono (kept : ∀ name image, m name = some image → m' name = some image) (renamed : Renamed m names images) :
    Renamed m' names images :=
  List.Forall₂.imp (fun name image => kept name image) renamed

theorem Renamed.snoc (renamed : Renamed m names images) {name image : CString} (last : m name = some image) :
    Renamed m (names ++ [name]) (images ++ [image]) :=
  List.rel_append renamed (.cons last .nil)

theorem Renamed.length_eq (renamed : Renamed m names images) : names.length = images.length :=
  List.Forall₂.length_eq renamed

theorem Renamed.eq_nil (renamed : Renamed m names images) : images = [] ↔ names = [] := by
  rw [← List.length_eq_zero_iff, ← List.length_eq_zero_iff, renamed.length_eq]

theorem Renamed.images_unique (renamed : Renamed m names images) (renamed' : Renamed m names images') : images = images' := by
  have right : Relator.RightUnique (fun name image => m name = some image) :=
    fun _ _ _ first second => Option.some.inj (first.symm.trans second)
  exact List.right_unique_forall₂' right renamed renamed'

variable (apart : Renaming m)
include apart

theorem Renamed.plain (renamed : Renamed m names images) : ∀ image ∈ images, PlainName image := by
  induction renamed with
  | nil => simp
  | cons own _ ih => simpa using ⟨apart.plain own, ih⟩

theorem Renamed.names_unique (renamed : Renamed m names images) (renamed' : Renamed m names' images) : names = names' := by
  have left : Relator.LeftUnique (fun name image => m name = some image) :=
    fun _ _ _ first second => apart.injective first second
  exact List.left_unique_forall₂' left renamed renamed'

theorem Renamed.isPrefix_iff (renamed : Renamed m names images) (renamed' : Renamed m names' images') :
    images <+: images' ↔ names <+: names' := by
  have front : Renamed m (names'.take names.length) (images'.take images.length) := by
    rw [renamed.length_eq]
    exact List.forall₂_take _ renamed'
  rw [List.prefix_iff_eq_take, List.prefix_iff_eq_take]
  constructor
  · intro same
    rw [← same] at front
    exact renamed.names_unique apart front
  · intro same
    rw [← same] at front
    exact renamed.images_unique front

/-- Renamed paths lie below one another exactly where the paths do. -/
theorem Renamed.below_iff (plain : ∀ name ∈ names, PlainName name) (plain' : ∀ name ∈ names', PlainName name)
    (renamed : Renamed m names images) (renamed' : Renamed m names' images') :
    Below (joined images) (joined images') ↔ Below (joined names) (joined names') := by
  rw [below_joined (renamed.plain apart) (renamed'.plain apart), below_joined plain plain',
    renamed.isPrefix_iff apart renamed']

end

end Library
