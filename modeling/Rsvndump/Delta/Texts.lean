import Rsvndump.Delta.Covered

/-! The texts of the files.

The repository has a text for each file. The editor keeps a local copy of each
text it has received, which is the source of the next delta; it is not dropped
in every case in which the file goes away.
-/

set_option autoImplicit false

namespace Rsvndump

open Library

/-! ## Texts -/

/-- The files of a tree with their texts. -/
abbrev Texts := CString → Option Bytes

/-- Without the files below a path. -/
def Texts.pruned (texts : Texts) (path : CString) : Texts := fun q => if isChild path q then none else texts q

/-- Without a file. -/
def Texts.erased (texts : Texts) (path : CString) : Texts := Function.update texts path none

/-- With the result of a delta, whose source is empty if there is no text yet. -/
def Texts.applied (texts : Texts) (path : CString) : Option TextDelta → Texts
  | none => texts
  | some delta => Function.update texts path (some (delta ((texts path).getD [])))

/-- With a new file, which is empty before a delta. -/
def Texts.added (texts : Texts) (path : CString) (text : Option TextDelta) : Texts :=
  Function.update texts path (some ((text.map fun delta => delta []).getD []))

/-- The texts under the paths that are printed. -/
def Texts.printed (texts : Texts) (baton : DeBaton) : Texts := fun path => texts (path.drop (printedPath baton []).length)

theorem Texts.printed_apply (texts : Texts) (baton : DeBaton) (path : CString) :
    texts.printed baton (printedPath baton path) = texts path := by
  simp [Texts.printed, printedPath]

/-- The texts in the repository after the calls below a directory. -/
def Drive.texts : Drive → Texts → Texts
  | .done, texts => texts
  | .deleteEntry path rest, texts => rest.texts ((texts.erased path).pruned path)
  | .addDirectory _ _ children rest, texts => rest.texts (children.texts texts)
  | .openDirectory _ _ children rest, texts => rest.texts (children.texts texts)
  | .addFile path _ text rest, texts => rest.texts (texts.added path text)
  | .openFile path _ text rest, texts => rest.texts (texts.applied path text)

/-- The local copies after the callbacks for these calls. The copy for a deleted path stays. -/
def Drive.copies : Drive → Texts → Texts
  | .done, copies => copies
  | .deleteEntry path rest, copies => rest.copies (copies.pruned path)
  | .addDirectory _ _ children rest, copies => rest.copies (children.copies copies)
  | .openDirectory _ _ children rest, copies => rest.copies (children.copies copies)
  | .addFile path _ text rest, copies => rest.copies (copies.applied path text)
  | .openFile path _ text rest, copies => rest.copies (copies.applied path text)

/-- The files an edit visits. -/
def Drive.files : Drive → List CString
  | .done => []
  | .deleteEntry _ rest => rest.files
  | .addDirectory _ _ children rest => children.files ++ rest.files
  | .openDirectory _ _ children rest => children.files ++ rest.files
  | .addFile path _ _ rest => path :: rest.files
  | .openFile path _ _ rest => path :: rest.files

/-- The files an edit opens. -/
def Drive.opened : Drive → List CString
  | .done => []
  | .deleteEntry _ rest => rest.opened
  | .addDirectory _ _ children rest => children.opened ++ rest.opened
  | .openDirectory _ _ children rest => children.opened ++ rest.opened
  | .addFile _ _ _ rest => rest.opened
  | .openFile path _ _ rest => path :: rest.opened

/-- How Subversion drives the editor. Nothing is opened below an added directory, a file is added
with a delta of the empty text, an opened file exists; each file is visited once, and entries are
deleted before others take their place. -/
def Drive.Sound : Drive → Texts → List CString → Prop
  | .done, _, _ => True
  | .deleteEntry path rest, texts, visited =>
      (∀ q ∈ visited, q ≠ path ∧ isChild path q = false) ∧ rest.Sound ((texts.erased path).pruned path) visited
  | .addDirectory _ _ children rest, texts, visited =>
      children.AddsOnly ∧ children.Sound texts visited ∧ rest.Sound (children.texts texts) (children.files ++ visited)
  | .openDirectory _ _ children rest, texts, visited =>
      children.Sound texts visited ∧ rest.Sound (children.texts texts) (children.files ++ visited)
  | .addFile path _ text rest, texts, visited =>
      path ∉ visited ∧ (∃ delta, text = some delta ∧ ∀ source, delta source = delta []) ∧
        rest.Sound (texts.added path text) (path :: visited)
  | .openFile path _ text rest, texts, visited =>
      path ∉ visited ∧ (texts path).isSome ∧ rest.Sound (texts.applied path text) (path :: visited)

/-- No file is added where the copy of an earlier one is left, unless that is empty. -/
def Drive.Fresh : Drive → Texts → Prop
  | .done, _ => True
  | .deleteEntry path rest, copies => rest.Fresh (copies.pruned path)
  | .addDirectory _ _ children rest, copies => children.Fresh copies ∧ rest.Fresh (children.copies copies)
  | .openDirectory _ _ children rest, copies => children.Fresh copies ∧ rest.Fresh (children.copies copies)
  | .addFile path _ text rest, copies => (copies path).getD [] = [] ∧ rest.Fresh (copies.applied path text)
  | .openFile path _ text rest, copies => rest.Fresh (copies.applied path text)

/-! ## Agreement -/

theorem Texts.applied_ne (texts : Texts) {path q : CString} (other : q ≠ path) (text : Option TextDelta) :
    texts.applied path text q = texts q := by
  cases text with
  | none => rfl
  | some delta => exact Function.update_of_ne other _ _

theorem Texts.applied_self (texts : Texts) (path : CString) (delta : TextDelta) :
    texts.applied path (some delta) path = some (delta ((texts path).getD [])) :=
  Function.update_self _ _ _

theorem Texts.added_ne (texts : Texts) {path q : CString} (other : q ≠ path) (text : Option TextDelta) :
    texts.added path text q = texts q :=
  Function.update_of_ne other _ _

theorem Texts.added_self (texts : Texts) (path : CString) (delta : TextDelta) :
    texts.added path (some delta) path = some (delta []) :=
  Function.update_self _ _ _

theorem Texts.deleted_eq (texts : Texts) (path q : CString) :
    ((texts.erased path).pruned path) q = if q = path ∨ isChild path q = true then none else texts q := by
  unfold Texts.pruned Texts.erased
  by_cases same : q = path
  · simp [same]
  · simp [same]

/-- Every file has its local copy. -/
def Agree (texts copies : Texts) : Prop := ∀ path text, texts path = some text → copies path = some text

theorem Agree.deleted {texts copies : Texts} (agree : Agree texts copies) (path : CString) :
    Agree ((texts.erased path).pruned path) (copies.pruned path) := by
  intro q text found
  rw [Texts.deleted_eq] at found
  split at found
  · cases found
  · next other =>
    rw [Texts.pruned, if_neg fun child => other (.inr child)]
    exact agree q text found

theorem Agree.added {texts copies : Texts} (agree : Agree texts copies) {path : CString} {delta : TextDelta}
    (constant : ∀ source, delta source = delta []) :
    Agree (texts.added path (some delta)) (copies.applied path (some delta)) := by
  intro q text found
  by_cases here : q = path
  · subst here
    rw [Texts.added_self] at found
    rw [Texts.applied_self, constant]
    exact found
  · rw [Texts.added_ne _ here] at found
    rw [Texts.applied_ne _ here]
    exact agree q text found

theorem Agree.applied {texts copies : Texts} (agree : Agree texts copies) {path : CString}
    (there : (texts path).isSome) (text : Option TextDelta) :
    Agree (texts.applied path text) (copies.applied path text) := by
  obtain ⟨old, found⟩ := Option.isSome_iff_exists.mp there
  have copy := agree path old found
  intro q new held
  by_cases here : q = path
  · subst here
    cases text with
    | none => exact agree q new held
    | some delta =>
      rw [Texts.applied_self, found] at held
      rw [Texts.applied_self, copy]
      exact held
  · rw [Texts.applied_ne _ here] at held ⊢
    exact agree q new held

/-- What was visited is not touched again. -/
theorem Drive.texts_visited {drive : Drive} {texts : Texts} {visited : List CString}
    (sound : drive.Sound texts visited) {path : CString} (seen : path ∈ visited) : drive.texts texts path = texts path := by
  induction drive generalizing texts visited with
  | done => rfl
  | deleteEntry gone rest ih =>
    rw [Drive.texts, ih sound.2 seen, Texts.deleted_eq, if_neg]
    have := sound.1 path seen
    simp [this.1, this.2]
  | addDirectory _ _ children rest ihChildren ihRest =>
    rw [Drive.texts, ihRest sound.2.2 (List.mem_append_right _ seen), ihChildren sound.2.1 seen]
  | openDirectory _ _ children rest ihChildren ihRest =>
    rw [Drive.texts, ihRest sound.2 (List.mem_append_right _ seen), ihChildren sound.1 seen]
  | addFile new _ text rest ih =>
    have other : path ≠ new := fun same => sound.1 (same ▸ seen)
    rw [Drive.texts, ih sound.2.2 (List.mem_cons_of_mem _ seen), Texts.added_ne _ other]
  | openFile old _ text rest ih =>
    have other : path ≠ old := fun same => sound.1 (same ▸ seen)
    rw [Drive.texts, ih sound.2.2 (List.mem_cons_of_mem _ seen), Texts.applied_ne _ other]

/-- A file that is not visited keeps its text or goes away. -/
theorem Drive.texts_unvisited {drive : Drive} {texts : Texts} {path : CString} (unseen : path ∉ drive.files)
    {text : Bytes} (found : drive.texts texts path = some text) : texts path = some text := by
  induction drive generalizing texts with
  | done => exact found
  | deleteEntry gone rest ih =>
    have before := ih unseen found
    rw [Texts.deleted_eq] at before
    split at before
    · cases before
    · exact before
  | addDirectory _ _ children rest ihChildren ihRest =>
    rw [Drive.files, List.mem_append, not_or] at unseen
    exact ihChildren unseen.1 (ihRest unseen.2 found)
  | openDirectory _ _ children rest ihChildren ihRest =>
    rw [Drive.files, List.mem_append, not_or] at unseen
    exact ihChildren unseen.1 (ihRest unseen.2 found)
  | addFile new _ content rest ih =>
    rw [Drive.files, List.mem_cons, not_or] at unseen
    have before := ih unseen.2 found
    rwa [Texts.added_ne _ unseen.1] at before
  | openFile old _ content rest ih =>
    rw [Drive.files, List.mem_cons, not_or] at unseen
    have before := ih unseen.2 found
    rwa [Texts.applied_ne _ unseen.1] at before

theorem Drive.Sound.unseen {drive : Drive} {texts : Texts} {visited : List CString} (sound : drive.Sound texts visited)
    {path : CString} (file : path ∈ drive.files) : path ∉ visited := by
  induction drive generalizing texts visited with
  | done => cases file
  | deleteEntry gone rest ih => exact ih sound.2 file
  | addDirectory _ _ children rest ihChildren ihRest =>
    rcases List.mem_append.mp file with inner | later
    · exact ihChildren sound.2.1 inner
    · exact fun seen => ihRest sound.2.2 later (List.mem_append_right _ seen)
  | openDirectory _ _ children rest ihChildren ihRest =>
    rcases List.mem_append.mp file with inner | later
    · exact ihChildren sound.1 inner
    · exact fun seen => ihRest sound.2 later (List.mem_append_right _ seen)
  | addFile new _ content rest ih =>
    rcases List.mem_cons.mp file with rfl | later
    · exact sound.1
    · exact fun seen => ih sound.2.2 later (List.mem_cons_of_mem _ seen)
  | openFile old _ content rest ih =>
    rcases List.mem_cons.mp file with rfl | later
    · exact sound.1
    · exact fun seen => ih sound.2.2 later (List.mem_cons_of_mem _ seen)

/-- A file that was visited is there. -/
theorem Drive.Sound.texts_isSome {drive : Drive} {texts : Texts} {visited : List CString}
    (sound : drive.Sound texts visited) {path : CString} (file : path ∈ drive.files) : (drive.texts texts path).isSome := by
  induction drive generalizing texts visited with
  | done => cases file
  | deleteEntry gone rest ih => exact ih sound.2 file
  | addDirectory _ _ children rest ihChildren ihRest =>
    rcases List.mem_append.mp file with inner | later
    · rw [Drive.texts, Drive.texts_visited sound.2.2 (List.mem_append_left _ inner)]
      exact ihChildren sound.2.1 inner
    · exact ihRest sound.2.2 later
  | openDirectory _ _ children rest ihChildren ihRest =>
    rcases List.mem_append.mp file with inner | later
    · rw [Drive.texts, Drive.texts_visited sound.2 (List.mem_append_left _ inner)]
      exact ihChildren sound.1 inner
    · exact ihRest sound.2 later
  | addFile new _ content rest ih =>
    rcases List.mem_cons.mp file with rfl | later
    · rw [Drive.texts, Drive.texts_visited sound.2.2 List.mem_cons_self]
      rw [Texts.added, Function.update_self]
      rfl
    · exact ih sound.2.2 later
  | openFile old _ content rest ih =>
    rcases List.mem_cons.mp file with rfl | later
    · rw [Drive.texts, Drive.texts_visited sound.2.2 List.mem_cons_self]
      cases content with
      | none => exact sound.2.1
      | some delta =>
        rw [Texts.applied_self]
        rfl
    · exact ih sound.2.2 later

end Rsvndump
