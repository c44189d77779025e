import Rsvndump.Library.PathNames
import Rsvndump.Log

/-! The obfuscation of paths and texts (session.c, utils.c).

Paths are obfuscated component by component. One hash of the session remembers the
image of every component, another one the images that are taken.
-/

set_option autoImplicit false

namespace Rsvndump

open Library

/-! ## Names -/

def rchars : CString := cstr "abcdefghijklmnopqrstuvwxyz"

def probs : List Nat :=
  [81, 96, 124, 156, 283, 305, 325, 386, 456, 458, 466, 506, 530,
    597, 672, 691, 692, 752, 815, 906, 934, 944, 968, 970, 999, 1000]

/-- The scan for the first bound that is not below `n` ends inside the table. -/
theorem scan_ends (n : Nat) : probs.findIdx (fun bound => decide (n % 1000 ≤ bound)) < rchars.length := by
  have last : probs.findIdx (fun bound => decide (n % 1000 ≤ bound)) < probs.length := by
    apply List.findIdx_lt_length_of_exists
    exact ⟨1000, by decide, by simpa using Nat.le_of_lt (Nat.mod_lt n (by decide))⟩
  exact last

def randomChar (n : Nat) : CChar := rchars.get ⟨_, scan_ends n⟩

/-- The fields of `session_t` for the obfuscation; `drawn` counts the calls of `rand()`. -/
structure Obfuscation where
  obfuscate : Bool
  obfHash : AprHash CString
  obfTaken : AprHash CString
  drawn : Nat

/-- `session_create`, with the flag SF_OBFUSCATE that `main` sets. -/
def Obfuscation.create (obfuscate : Bool) : Obfuscation := ⟨obfuscate, ∅, ∅, 0⟩

-- the outcomes of `rand()`, one after the other, and the rounds a loop is given
variable (rand : Nat → Nat) (limit : Nat)

def randomName (first len : Nat) : CString := (List.range len).map fun i => randomChar (rand (first + i))

/-- A name, the hash of the names that are taken and the calls of `rand()` so far. -/
structure MadeName where
  obf : CString
  taken : Option (AprHash CString)
  drawn : Nat

/-- The loop of `session_make_obfuscated`. It is left without a result if `limit` rounds
have only given names that are taken. -/
def sessionMakeObfuscated (taken : Option (AprHash CString)) : Nat → Nat → Nat → Option MadeName
  | 0, _, _ => none
  | limit + 1, lfac, drawn =>
    let len := 3 + rand drawn % lfac
    let obf := randomName rand (drawn + 1) len
    if (taken.bind (·.lookup obf)).isSome then sessionMakeObfuscated taken limit (lfac + 1) (drawn + 1 + len)
    else some ⟨obf, taken.map (·.insert obf obf), drawn + 1 + len⟩

/-! ## Paths -/

/-- `utils_path_split` -/
def utilsPathSplit (path : CString) : CString × CString :=
  match lastSlash path with
  | none => ([], path)
  | some sep =>
    if path = [slash] then ([slash], [slash])
    -- the root keeps its slash
    else (path.take (if sep = 0 then 1 else sep), path.drop (sep + 1))

/-- `utils_path_join`; `dir` is not empty. -/
def utilsPathJoin (dir base : CString) : CString :=
  if dir.getLast? = some slash ∨ base.head? = some slash then dir ++ base else dir ++ slash :: base

theorem utilsPathSplit_plain {path : CString} (plain : slash ∉ path) : utilsPathSplit path = ([], path) := by
  rw [utilsPathSplit, lastSlash_eq_none.mpr plain]

theorem utilsPathSplit_append {front name : CString} (plain : slash ∉ name) (proper : front ++ slash :: name ≠ [slash]) :
    utilsPathSplit (front ++ slash :: name) = (if front = [] then [slash] else front, name) := by
  have top : front.length = 0 ↔ front = [] := List.length_eq_zero_iff
  rw [utilsPathSplit, lastSlash_append plain]
  simp only [if_neg proper, top, List.drop_append]
  by_cases root : front = []
  · simp [root]
  · simp [root, List.drop_eq_nil_of_le]

/-- A directory that is obfuscated on its own is shorter. -/
theorem utilsPathSplit_shorter {path : CString} (deeper : (utilsPathSplit path).1 ≠ [slash])
    (nonempty : (utilsPathSplit path).1 ≠ []) : (utilsPathSplit path).1.length < path.length := by
  by_cases split : slash ∈ path
  · by_cases root : path = [slash]
    · subst root
      exact absurd rfl deeper
    · obtain ⟨front, name, rfl, plain⟩ := last_slash split
      rw [utilsPathSplit_append plain root] at deeper ⊢
      by_cases top : front = []
      · exact absurd (by simp [top]) deeper
      · simp [top]
  · rw [utilsPathSplit_plain split] at nonempty
    exact absurd rfl nonempty

/-- The second half of `session_obfuscate_rec`, with the directory done. -/
def obfuscateBase (dir base : CString) (session : Obfuscation) : Option (CString × Obfuscation) :=
  if base = [] then some ([], session)
  else
    match session.obfHash.lookup base with
    | some obf => some (if dir ≠ [] then utilsPathJoin dir obf else obf, session)
    | none =>
      match sessionMakeObfuscated rand (some session.obfTaken) limit 8 session.drawn with
      | none => none
      | some made =>
        some (if dir ≠ [] then utilsPathJoin dir made.obf else made.obf,
          { session with
            obfHash := session.obfHash.insert base made.obf
            obfTaken := made.taken.getD session.obfTaken
            drawn := made.drawn })

def sessionObfuscateRec (path : CString) (session : Obfuscation) : Option (CString × Obfuscation) :=
  if deeper : (utilsPathSplit path).1 ≠ [slash] ∧ (utilsPathSplit path).1 ≠ [] then
    have := utilsPathSplit_shorter deeper.1 deeper.2
    match sessionObfuscateRec (utilsPathSplit path).1 session with
    | none => none
    | some (dir, session) => obfuscateBase rand limit dir (utilsPathSplit path).2 session
  else obfuscateBase rand limit (utilsPathSplit path).1 (utilsPathSplit path).2 session
termination_by path.length

/-- A NULL path is `none`. -/
def sessionObfuscate (path : Option CString) (session : Obfuscation) : Option (Option CString × Obfuscation) :=
  match path with
  | none => some (none, session)
  | some path =>
    if session.obfuscate then (sessionObfuscateRec rand limit path session).map fun (obf, session) => (some obf, session)
    else some (some path, session)

def sessionObfuscateOnce (str : Option CString) (session : Obfuscation) : Option (Option CString × Obfuscation) :=
  match str with
  | none => some (none, session)
  | some str =>
    if session.obfuscate then
      (sessionMakeObfuscated rand none limit 8 session.drawn).map fun made =>
        (some made.obf, { session with drawn := made.drawn })
    else some (some str, session)

/-! ## Calls -/

/-- The calls of the rest of the program. -/
inductive ObfuscationCall where
  | path (path : Option CString)
  | once (str : Option CString)
  deriving DecidableEq

def Obfuscation.answer (call : ObfuscationCall) (session : Obfuscation) : Option (Option CString × Obfuscation) :=
  match call with
  | .path path => sessionObfuscate rand limit path session
  | .once str => sessionObfuscateOnce rand limit str session

/-- Calls that have returned, with their answers. -/
inductive Obfuscates : Obfuscation → List (ObfuscationCall × Option CString) → Obfuscation → Prop where
  | nil (session : Obfuscation) : Obfuscates session [] session
  | call {start session session' : Obfuscation} {answers : List (ObfuscationCall × Option CString)}
      {call : ObfuscationCall} {answer : Option CString} (limit : Nat) (before : Obfuscates start answers session)
      (returned : session.answer rand limit call = some (answer, session')) :
      Obfuscates start (answers ++ [(call, answer)]) session'

variable {rand limit}

/-! ## Made names -/

theorem plain_randomName (first len : Nat) : PlainName (randomName rand first (3 + len)) := by
  constructor
  · simp [randomName]
  · intro member
    obtain ⟨i, -, own⟩ := List.mem_map.mp member
    have letter : randomChar (rand (first + i)) ∈ rchars := List.getElem_mem _
    rw [own] at letter
    exact absurd letter (by decide)

theorem sessionMakeObfuscated_eq_some {taken : Option (AprHash CString)} {lfac drawn : Nat} {made : MadeName}
    (returned : sessionMakeObfuscated rand taken limit lfac drawn = some made) :
    PlainName made.obf ∧ taken.bind (·.lookup made.obf) = none ∧ made.taken = taken.map (·.insert made.obf made.obf) := by
  induction limit generalizing lfac drawn with
  | zero => cases returned
  | succ limit ih =>
    rw [sessionMakeObfuscated] at returned
    split at returned
    · exact ih returned
    · next free =>
      cases returned
      exact ⟨plain_randomName _ _, by simpa using free, rfl⟩

/-! ## Steps -/

/-- Different components have different images, and all images are taken. -/
structure Obfuscation.Consistent (session : Obfuscation) : Prop where
  apart : Renaming session.obfHash.lookup
  taken : ∀ {name image}, session.obfHash.lookup name = some image → session.obfTaken.lookup image ≠ none

/-- The images of an earlier moment are those of a later one. -/
structure Obfuscation.Extends (earlier later : Obfuscation) : Prop where
  obfuscate : later.obfuscate = earlier.obfuscate
  kept : ∀ name image, earlier.obfHash.lookup name = some image → later.obfHash.lookup name = some image

theorem Obfuscation.Extends.refl (session : Obfuscation) : session.Extends session := ⟨rfl, fun _ _ => id⟩

theorem Obfuscation.Extends.trans {first second third : Obfuscation} (earlier : first.Extends second)
    (later : second.Extends third) : first.Extends third :=
  ⟨later.obfuscate.trans earlier.obfuscate, fun name image found => later.kept name image (earlier.kept name image found)⟩

theorem Obfuscation.create_consistent (obfuscate : Bool) : (Obfuscation.create obfuscate).Consistent where
  apart := ⟨fun found => by simp [create] at found, fun found => by simp [create] at found⟩
  taken := fun found => by simp [create] at found

/-- A new component gets an image that no component has. -/
theorem Obfuscation.Consistent.insert {session : Obfuscation} (consistent : session.Consistent) {base : CString}
    {made : MadeName} (fresh : session.obfHash.lookup base = none) (plain : PlainName made.obf)
    (free : session.obfTaken.lookup made.obf = none) :
    ({ session with
        obfHash := session.obfHash.insert base made.obf
        obfTaken := session.obfTaken.insert made.obf made.obf
        drawn := made.drawn } : Obfuscation).Consistent := by
  have other : ∀ {name image}, name ≠ base → (session.obfHash.insert base made.obf).lookup name = some image →
      session.obfHash.lookup name = some image := by
    intro name image different found
    rwa [AList.lookup_insert_ne different] at found
  have own : ∀ {image}, (session.obfHash.insert base made.obf).lookup base = some image → made.obf = image := by
    intro image found
    rw [AList.lookup_insert] at found
    exact Option.some.inj found
  -- the image of another component is taken, so it is not the new one
  have foreign : ∀ {name image}, name ≠ base → (session.obfHash.insert base made.obf).lookup name = some image →
      image ≠ made.obf := by
    rintro name image different found rfl
    exact consistent.taken (other different found) free
  refine ⟨⟨?_, ?_⟩, ?_⟩
  · intro name image found
    by_cases same : name = base
    · subst same
      exact own found ▸ plain
    · exact consistent.apart.plain (other same found)
  · intro name name' image found found'
    by_cases same : name = base <;> by_cases same' : name' = base
    · rw [same, same']
    · subst same
      exact absurd (own found).symm (foreign same' found')
    · subst same'
      exact absurd (own found').symm (foreign same found)
    · exact consistent.apart.injective (other same found) (other same' found')
  · intro name image found
    by_cases same : name = base
    · subst same
      rw [← own found, AList.lookup_insert]
      simp
    · rw [AList.lookup_insert_ne (foreign same found)]
      exact consistent.taken (other same found)

theorem obfuscateBase_eq_some {dir base image : CString} {session session' : Obfuscation} (consistent : session.Consistent)
    (returned : obfuscateBase rand limit dir base session = some (image, session')) :
    session'.Consistent ∧ session.Extends session' ∧
      ((base = [] ∧ image = []) ∨
        ∃ obf, session'.obfHash.lookup base = some obf ∧ image = if dir ≠ [] then utilsPathJoin dir obf else obf) := by
  unfold obfuscateBase at returned
  split at returned
  · next empty =>
    cases returned
    exact ⟨consistent, .refl session, .inl ⟨empty, rfl⟩⟩
  · split at returned
    · next obf known =>
      cases returned
      exact ⟨consistent, .refl session, .inr ⟨obf, known, rfl⟩⟩
    · next fresh =>
      split at returned
      · cases returned
      · next made loop =>
        obtain ⟨plain, free, taken⟩ := sessionMakeObfuscated_eq_some loop
        cases returned
        rw [taken]
        refine ⟨consistent.insert fresh plain free, ⟨rfl, ?_⟩, .inr ⟨made.obf, AList.lookup_insert _, rfl⟩⟩
        intro name image found
        have different : name ≠ base := by
          rintro rfl
          rw [fresh] at found
          cases found
        rwa [AList.lookup_insert_ne different]

theorem sessionObfuscateRec_flat {path dir base : CString} {session : Obfuscation} (split : utilsPathSplit path = (dir, base))
    (flat : ¬(dir ≠ [slash] ∧ dir ≠ [])) :
    sessionObfuscateRec rand limit path session = obfuscateBase rand limit dir base session := by
  rw [sessionObfuscateRec, dif_neg (by rwa [split]), split]

theorem sessionObfuscateRec_deeper {path dir base image : CString} {session session' : Obfuscation}
    (split : utilsPathSplit path = (dir, base)) (deeper : dir ≠ [slash] ∧ dir ≠ [])
    (returned : sessionObfuscateRec rand limit path session = some (image, session')) :
    ∃ dir' between, sessionObfuscateRec rand limit dir session = some (dir', between) ∧
      obfuscateBase rand limit dir' base between = some (image, session') := by
  rw [sessionObfuscateRec, dif_pos (by rwa [split])] at returned
  simp only [split] at returned
  split at returned
  · cases returned
  · next dir' between done => exact ⟨dir', between, done, returned⟩

theorem sessionObfuscateRec_keeps {path image : CString} {session session' : Obfuscation} (consistent : session.Consistent)
    (returned : sessionObfuscateRec rand limit path session = some (image, session')) :
    session'.Consistent ∧ session.Extends session' := by
  induction path using sessionObfuscateRec.induct rand limit session generalizing image session' with
  | case1 path deeper shorter stuck ih =>
    obtain ⟨dir', between, done, -⟩ := sessionObfuscateRec_deeper (Prod.eta _).symm deeper returned
    rw [stuck] at done
    cases done
  | case2 path deeper shorter _ _ _ ih =>
    obtain ⟨dir, between, done, rest⟩ := sessionObfuscateRec_deeper (Prod.eta _).symm deeper returned
    obtain ⟨consistent', extends'⟩ := ih done
    obtain ⟨kept, later, -⟩ := obfuscateBase_eq_some consistent' rest
    exact ⟨kept, extends'.trans later⟩
  | case3 path flat =>
    rw [sessionObfuscateRec_flat (Prod.eta _).symm flat] at returned
    obtain ⟨kept, later, -⟩ := obfuscateBase_eq_some consistent returned
    exact ⟨kept, later⟩

/-! ## Images of paths -/

theorem last_joined {names : List CString} (plain : ∀ name ∈ names, PlainName name) :
    (joined names).getLast? ≠ some slash := by
  rcases names.eq_nil_or_concat with rfl | ⟨front, name, rfl⟩
  · simp [joined]
  · have own : PlainName name := plain name (by simp)
    have ends : ∀ path : CString, (path ++ name).getLast? ≠ some slash := by
      intro path last
      rw [List.getLast?_append_of_ne_nil _ own.1] at last
      exact own.2 (List.mem_of_getLast? last)
    by_cases top : front = []
    · subst top
      exact ends []
    · rw [List.concat_eq_append, joined_append top (by simp), List.append_cons]
      exact ends _

theorem utilsPathJoin_plain {dir obf : CString} (closed : dir.getLast? ≠ some slash) (plain : PlainName obf) :
    utilsPathJoin dir obf = dir ++ slash :: obf := by
  have inside : obf.head? ≠ some slash := by
    intro first
    exact plain.2 (List.mem_of_head? first)
  simp [utilsPathJoin, closed, inside]

theorem sessionObfuscateRec_joined {front : CString} (lead : front = [] ∨ front = [slash]) {names : List CString}
    (nonempty : names ≠ []) (plain : ∀ name ∈ names, PlainName name) {image : CString} {session session' : Obfuscation}
    (consistent : session.Consistent)
    (returned : sessionObfuscateRec rand limit (front ++ joined names) session = some (image, session')) :
    ∃ images, Renamed session'.obfHash.lookup names images ∧ image = front ++ joined images := by
  induction names using List.reverseRecOn generalizing image session' with
  | nil => exact absurd rfl nonempty
  | append_singleton before name ih =>
    have own : PlainName name := plain name (by simp)
    have proper : [] ++ slash :: name ≠ [slash] := by simpa using own.1
    -- the recursion ends at the first name, and the slash in front of it is not obfuscated
    by_cases top : before = []
    · subst top
      have split : utilsPathSplit (front ++ joined [name]) = (front, name) := by
        rcases lead with rfl | rfl
        · exact utilsPathSplit_plain own.2
        · exact utilsPathSplit_append own.2 proper
      have flat : ¬(front ≠ [slash] ∧ front ≠ []) := by rcases lead with rfl | rfl <;> simp
      rw [List.nil_append, sessionObfuscateRec_flat split flat] at returned
      obtain ⟨-, -, ⟨empty, -⟩ | ⟨obf, known, rfl⟩⟩ := obfuscateBase_eq_some consistent returned
      · exact absurd empty own.1
      · refine ⟨[obf], .cons known .nil, ?_⟩
        rcases lead with rfl | rfl
        · rfl
        · simp [utilsPathJoin, joined]
    · have plainBefore : ∀ n ∈ before, PlainName n := fun n member => plain n (List.mem_append_left _ member)
      have more : joined before ≠ [] := fun empty => top ((joined_eq_nil plainBefore).mp empty)
      have dirSome : front ++ joined before ≠ [] := by simp [more]
      have dirDeeper : front ++ joined before ≠ [slash] := by
        intro single
        have last : (front ++ joined before).getLast? = some slash := by rw [single]; rfl
        rw [List.getLast?_append_of_ne_nil _ more] at last
        exact last_joined plainBefore last
      have split : utilsPathSplit (front ++ joined (before ++ [name])) = (front ++ joined before, name) := by
        have whole : front ++ joined (before ++ [name]) = (front ++ joined before) ++ slash :: name := by
          rw [joined_append top (List.cons_ne_nil _ _), List.append_assoc]
          rfl
        have proper' : (front ++ joined before) ++ slash :: name ≠ [slash] := by
          intro single
          rcases List.append_eq_singleton_iff.mp single with ⟨empty, -⟩ | ⟨-, wrong⟩
          · exact dirSome empty
          · cases wrong
        rw [whole, utilsPathSplit_append own.2 proper', if_neg dirSome]
      obtain ⟨dir, between, done, rest⟩ := sessionObfuscateRec_deeper split ⟨dirDeeper, dirSome⟩ returned
      obtain ⟨consistent', -⟩ := sessionObfuscateRec_keeps consistent done
      obtain ⟨images, renamed, rfl⟩ := ih top plainBefore done
      obtain ⟨kept, later, ⟨empty, -⟩ | ⟨obf, known, rfl⟩⟩ := obfuscateBase_eq_some consistent' rest
      · exact absurd empty own.1
      · have imagesPlain := renamed.plain consistent'.apart
        have imagesTop : images ≠ [] := fun empty => top (renamed.eq_nil.mp empty)
        have imagesMore : joined images ≠ [] := fun empty => imagesTop ((joined_eq_nil imagesPlain).mp empty)
        have closed : (front ++ joined images).getLast? ≠ some slash := by
          rw [List.getLast?_append_of_ne_nil _ imagesMore]
          exact last_joined imagesPlain
        refine ⟨images ++ [obf], (renamed.mono later.kept).snoc known, ?_⟩
        rw [if_pos (by simp [imagesMore]), utilsPathJoin_plain closed (kept.apart.plain known),
          joined_append imagesTop (List.cons_ne_nil _ _), List.append_assoc]
        rfl

/-- What a path is mapped to: its names by `m`, the root by the image of its own base name. -/
structure Mapped (m : CString → Option CString) (path image : CString) : Prop where
  names : ∀ {front : CString} {names : List CString}, front = [] ∨ front = [slash] → names ≠ [] →
    (∀ name ∈ names, PlainName name) → path = front ++ joined names →
    ∃ images, Renamed m names images ∧ image = front ++ joined images
  empty : path = [] → image = []
  root : path = [slash] → ∃ obf, m [slash] = some obf ∧ image = slash :: obf

theorem Mapped.mono {m m' : CString → Option CString} (kept : ∀ name image, m name = some image → m' name = some image)
    {path image : CString} (mapped : Mapped m path image) : Mapped m' path image where
  names := by
    intro front names lead nonempty plain split
    obtain ⟨images, renamed, same⟩ := mapped.names lead nonempty plain split
    exact ⟨images, renamed.mono kept, same⟩
  empty := mapped.empty
  root := by
    intro top
    obtain ⟨obf, known, same⟩ := mapped.root top
    exact ⟨obf, kept _ _ known, same⟩

theorem sessionObfuscateRec_mapped {path image : CString} {session session' : Obfuscation} (consistent : session.Consistent)
    (returned : sessionObfuscateRec rand limit path session = some (image, session')) :
    Mapped session'.obfHash.lookup path image where
  names := by
    rintro front names lead nonempty plain rfl
    exact sessionObfuscateRec_joined lead nonempty plain consistent returned
  empty := by
    rintro rfl
    rw [sessionObfuscateRec_flat (utilsPathSplit_plain List.not_mem_nil) (by simp)] at returned
    cases returned
    rfl
  root := by
    rintro rfl
    rw [@sessionObfuscateRec_flat rand limit [slash] [slash] [slash] session rfl (by simp)] at returned
    obtain ⟨-, -, ⟨empty, -⟩ | ⟨obf, known, rfl⟩⟩ := obfuscateBase_eq_some consistent returned
    · cases empty
    · exact ⟨obf, known, by simp [utilsPathJoin]⟩

/-! ## Runs -/

theorem answer_eq_some {call : ObfuscationCall} {answer : Option CString} {session session' : Obfuscation}
    (consistent : session.Consistent) (obfuscates : session.obfuscate = true)
    (returned : session.answer rand limit call = some (answer, session')) :
    session'.Consistent ∧ session.Extends session' ∧
      ∀ path, call = .path (some path) → ∃ image, answer = some image ∧ Mapped session'.obfHash.lookup path image := by
  cases call with
  | path path =>
    cases path with
    | none =>
      cases returned
      exact ⟨consistent, .refl session, fun _ wrong => by cases wrong⟩
    | some path =>
      simp only [Obfuscation.answer, sessionObfuscate, obfuscates, if_true, Option.map_eq_some_iff, Prod.exists] at returned
      obtain ⟨image, later, done, same⟩ := returned
      cases same
      obtain ⟨kept, extends'⟩ := sessionObfuscateRec_keeps consistent done
      refine ⟨kept, extends', ?_⟩
      intro own same
      cases same
      exact ⟨image, rfl, sessionObfuscateRec_mapped consistent done⟩
  | once str =>
    cases str with
    | none =>
      cases returned
      exact ⟨consistent, .refl session, fun _ wrong => by cases wrong⟩
    | some str =>
      simp only [Obfuscation.answer, sessionObfuscateOnce, obfuscates, if_true, Option.map_eq_some_iff] at returned
      obtain ⟨made, -, same⟩ := returned
      cases same
      exact ⟨⟨consistent.apart, consistent.taken⟩, ⟨obfuscates.symm, fun _ _ => id⟩, fun _ wrong => by cases wrong⟩

theorem Obfuscates.keeps {start session : Obfuscation} {answers : List (ObfuscationCall × Option CString)}
    (ran : Obfuscates rand start answers session) (consistent : start.Consistent) (obfuscates : start.obfuscate = true) :
    session.Consistent ∧ start.Extends session ∧
      ∀ path answer, (.path (some path), answer) ∈ answers →
        ∃ image, answer = some image ∧ Mapped session.obfHash.lookup path image := by
  induction ran with
  | nil => exact ⟨consistent, .refl _, fun _ _ member => by cases member⟩
  | call limit before returned ih =>
    obtain ⟨consistent', earlier, mapped⟩ := ih
    obtain ⟨kept, later, own⟩ := answer_eq_some consistent' (earlier.obfuscate.trans obfuscates) returned
    refine ⟨kept, earlier.trans later, ?_⟩
    intro path answer member
    rcases List.mem_append.mp member with old | new
    · obtain ⟨image, same, at'⟩ := mapped path answer old
      exact ⟨image, same, at'.mono later.kept⟩
    · cases List.mem_singleton.mp new
      exact own path rfl

/-! ## Trees -/

/-- A relative path of names, or one behind the separator of the root. -/
def Tidy (path : CString) : Prop :=
  ∃ names : List CString, names ≠ [] ∧ (∀ name ∈ names, PlainName name) ∧ (path = joined names ∨ path = slash :: joined names)

/-- A map of names, and what the answers owe to it. `told p image` says that the image of
`p` has been asked for and was `image`. -/
structure KeepsTree (m : CString → Option CString) (told : CString → CString → Prop) : Prop where
  apart : Renaming m
  relative : ∀ {names image}, names ≠ [] → (∀ name ∈ names, PlainName name) → told (joined names) image →
    ∃ images, Renamed m names images ∧ image = joined images
  absolute : ∀ {names image}, names ≠ [] → (∀ name ∈ names, PlainName name) → told (slash :: joined names) image →
    ∃ images, Renamed m names images ∧ image = slash :: joined images
  same : ∀ {p q image image'}, Tidy p → Tidy q → told p image → told q image' → (image = image' ↔ p = q)
  ancestors : ∀ {p q image image'}, Tidy p → Tidy q → told p image → told q image' → (Below image image' ↔ Below p q)
  prefixes : ∀ {names names' image image'}, (∀ name ∈ names, PlainName name) → (∀ name ∈ names', PlainName name) →
    told (joined names) image → told (slash :: joined names') image' →
    skipsPath ⟨image⟩ image' = skipsPath ⟨joined names⟩ (slash :: joined names')

/-- The paths of the calls with their images. -/
def Told (answers : List (ObfuscationCall × Option CString)) (path image : CString) : Prop :=
  (.path (some path), some image) ∈ answers

/-- A leading separator is not part of the first name. -/
theorem lead_unique {front front' path path' : CString} (lead : front = [] ∨ front = [slash])
    (lead' : front' = [] ∨ front' = [slash]) (relative : path.head? ≠ some slash) (relative' : path'.head? ≠ some slash) :
    front ++ path = front' ++ path' ↔ front = front' ∧ path = path' := by
  rcases lead with rfl | rfl <;> rcases lead' with rfl | rfl
  · simp
  · simpa using fun same : path = slash :: path' => relative (by rw [same]; rfl)
  · simpa using fun same : slash :: path = path' => relative' (by rw [← same]; rfl)
  · simp

theorem below_lead {front front' path path' : CString} (lead : front = [] ∨ front = [slash])
    (lead' : front' = [] ∨ front' = [slash]) (nonempty : path ≠ []) (relative : path.head? ≠ some slash)
    (relative' : path'.head? ≠ some slash) :
    Below (front ++ path) (front' ++ path') ↔ front = front' ∧ Below path path' := by
  have first : ∀ {p q : CString}, p <+: q → p ≠ [] → q.head? = p.head? := by
    rintro p q ⟨rest, rfl⟩ more
    rw [List.head?_append_of_ne_nil _ more]
  rcases lead with rfl | rfl <;> rcases lead' with rfl | rfl
  · simp
  · simp only [List.nil_append, List.singleton_append, List.ne_cons_self, false_and, iff_false]
    intro above
    have same := first above.isPrefix nonempty
    exact relative same.symm
  · simp only [List.nil_append, List.singleton_append, List.cons_ne_self, false_and, iff_false]
    intro above
    have same := first above.isPrefix (List.cons_ne_nil _ _)
    exact relative' same
  · simp [Below, nonempty]

variable {m : CString → Option CString} {path path' image image' : CString}

/-- A tidy path and its image have the same lead. -/
structure Mapped.Parts (m : CString → Option CString) (path image front : CString) (names images : List CString) : Prop where
  lead : front = [] ∨ front = [slash]
  nonempty : names ≠ []
  plain : ∀ name ∈ names, PlainName name
  renamed : Renamed m names images
  path_eq : path = front ++ joined names
  image_eq : image = front ++ joined images

theorem Mapped.parts (mapped : Mapped m path image) (tidy : Tidy path) :
    ∃ front names images, Mapped.Parts m path image front names images := by
  obtain ⟨names, nonempty, plain, split | split⟩ := tidy
  · obtain ⟨images, renamed, same⟩ := mapped.names (.inl rfl) nonempty plain split
    exact ⟨[], names, images, .inl rfl, nonempty, plain, renamed, split, same⟩
  · obtain ⟨images, renamed, same⟩ := mapped.names (.inr rfl) nonempty plain split
    exact ⟨[slash], names, images, .inr rfl, nonempty, plain, renamed, split, same⟩

theorem Mapped.same_iff (apart : Renaming m) (tidy : Tidy path) (tidy' : Tidy path') (mapped : Mapped m path image)
    (mapped' : Mapped m path' image') : image = image' ↔ path = path' := by
  obtain ⟨front, names, images, parts⟩ := mapped.parts tidy
  obtain ⟨front', names', images', parts'⟩ := mapped'.parts tidy'
  have plain := parts.renamed.plain apart
  have plain' := parts'.renamed.plain apart
  rw [parts.path_eq, parts.image_eq, parts'.path_eq, parts'.image_eq,
    lead_unique parts.lead parts'.lead (head_joined plain) (head_joined plain'),
    lead_unique parts.lead parts'.lead (head_joined parts.plain) (head_joined parts'.plain)]
  refine and_congr_right fun _ => ⟨fun same => ?_, fun same => ?_⟩
  · have images_eq := joined_injective plain plain' same
    rw [parts.renamed.names_unique apart (images_eq ▸ parts'.renamed)]
  · have names_eq := joined_injective parts.plain parts'.plain same
    rw [parts.renamed.images_unique (names_eq ▸ parts'.renamed)]

theorem Mapped.below_iff (apart : Renaming m) (tidy : Tidy path) (tidy' : Tidy path') (mapped : Mapped m path image)
    (mapped' : Mapped m path' image') : Below image image' ↔ Below path path' := by
  obtain ⟨front, names, images, parts⟩ := mapped.parts tidy
  obtain ⟨front', names', images', parts'⟩ := mapped'.parts tidy'
  have plain := parts.renamed.plain apart
  have plain' := parts'.renamed.plain apart
  have imagesTop : joined images ≠ [] := fun empty =>
    parts.nonempty (parts.renamed.eq_nil.mp ((joined_eq_nil plain).mp empty))
  have namesTop : joined names ≠ [] := fun empty => parts.nonempty ((joined_eq_nil parts.plain).mp empty)
  rw [parts.path_eq, parts.image_eq, parts'.path_eq, parts'.image_eq,
    below_lead parts.lead parts'.lead imagesTop (head_joined plain) (head_joined plain'),
    below_lead parts.lead parts'.lead namesTop (head_joined parts.plain) (head_joined parts'.plain),
    parts.renamed.below_iff apart parts.plain parts'.plain parts'.renamed]

theorem skipsPath_joined {p : CString} {names : List CString} (plain : ∀ name ∈ names, PlainName name) :
    skipsPath ⟨p⟩ (slash :: joined names) = false ↔ Below p (joined names) := by
  rw [skipsPath_eq_false ⟨joined names, rfl, last_joined plain⟩, inside_iff]

theorem Mapped.prefix_iff (apart : Renaming m) {names names' : List CString} (plain : ∀ name ∈ names, PlainName name)
    (plain' : ∀ name ∈ names', PlainName name) (mapped : Mapped m (joined names) image)
    (mapped' : Mapped m (slash :: joined names') image') :
    skipsPath ⟨image⟩ image' = skipsPath ⟨joined names⟩ (slash :: joined names') := by
  obtain ⟨images, renamed, rfl⟩ : ∃ images, Renamed m names images ∧ image = joined images := by
    by_cases root : names = []
    · subst root
      exact ⟨[], .nil, mapped.empty rfl⟩
    · exact mapped.names (.inl rfl) root plain rfl
  have decided : ∀ {a b : Bool}, (a = false ↔ b = false) → a = b := by decide
  apply decided
  rw [skipsPath_joined plain']
  by_cases root : names' = []
  · subst root
    obtain ⟨obf, known, rfl⟩ := mapped'.root rfl
    have single : ∀ name ∈ [obf], PlainName name := by simpa using apart.plain known
    have own : Renamed m [[slash]] [obf] := .cons known .nil
    rw [show obf = joined [obf] from rfl, skipsPath_joined single, below_joined (renamed.plain apart) single,
      renamed.isPrefix_iff apart own, show joined [] = [] from rfl, below_nil_right, joined_eq_nil plain]
    constructor
    · intro above
      rcases List.prefix_cons_iff.mp above with empty | ⟨rest, whole, -⟩
      · exact empty
      · -- no component of a path is the separator itself
        exact absurd (plain [slash] (by simp [whole])) (by decide)
    · rintro rfl
      exact List.nil_prefix
  · obtain ⟨images', renamed', rfl⟩ := mapped'.names (.inr rfl) root plain' rfl
    rw [List.singleton_append, skipsPath_joined (renamed'.plain apart), renamed.below_iff apart plain plain' renamed']

theorem Mapped.keepsTree {told : CString → CString → Prop} (apart : Renaming m)
    (mapped : ∀ path image, told path image → Mapped m path image) : KeepsTree m told where
  apart := apart
  relative := fun nonempty plain asked => (mapped _ _ asked).names (.inl rfl) nonempty plain rfl
  absolute := fun nonempty plain asked => (mapped _ _ asked).names (.inr rfl) nonempty plain rfl
  same := fun tidy tidy' asked asked' => Mapped.same_iff apart tidy tidy' (mapped _ _ asked) (mapped _ _ asked')
  ancestors := fun tidy tidy' asked asked' => Mapped.below_iff apart tidy tidy' (mapped _ _ asked) (mapped _ _ asked')
  prefixes := fun plain plain' asked asked' => Mapped.prefix_iff apart plain plain' (mapped _ _ asked) (mapped _ _ asked')

/-- At every moment of a run the hash of the session is a map of names that keeps the tree,
and every later moment only extends it. -/
theorem obfuscation_keeps_tree {answers : List (ObfuscationCall × Option CString)} {session : Obfuscation}
    (ran : Obfuscates rand (.create true) answers session) :
    (∀ path answer, (.path (some path), answer) ∈ answers → answer ≠ none) ∧
      KeepsTree session.obfHash.lookup (Told answers) ∧
      ∀ more later, Obfuscates rand session more later →
        ∀ name image, session.obfHash.lookup name = some image → later.obfHash.lookup name = some image := by
  obtain ⟨consistent, extended, mapped⟩ := ran.keeps (Obfuscation.create_consistent true) rfl
  refine ⟨?_, Mapped.keepsTree consistent.apart ?_, ?_⟩
  · rintro path answer member rfl
    obtain ⟨image, wrong, -⟩ := mapped path none member
    cases wrong
  · intro path image member
    obtain ⟨image', same, at'⟩ := mapped path (some image) member
    cases same
    exact at'
  · intro more later ran' name image found
    exact (ran'.keeps consistent extended.obfuscate).2.1.kept name image found

/-- A path, the directory above it behind the separator of the root, and a text. -/
theorem obfuscation_keeps_tree_run : ∃ answers session,
    Obfuscates (fun n => 7919 * n + 17) (.create true) answers session ∧
      answers.map Prod.fst = [.path (some (cstr "trunk/a")), .once (some (cstr "a message")), .path (some (cstr "/trunk"))] ∧
      KeepsTree session.obfHash.lookup (Told answers) := by
  have returns : ((Obfuscation.create true).answer (fun n => 7919 * n + 17) 1 (.path (some (cstr "trunk/a")))).any
      (fun first => (first.2.answer (fun n => 7919 * n + 17) 1 (.once (some (cstr "a message")))).any
        fun second => (second.2.answer (fun n => 7919 * n + 17) 1 (.path (some (cstr "/trunk")))).isSome) := by
    decide +kernel
  obtain ⟨⟨answer, session⟩, first, returns⟩ := (Option.any_eq_true _ _).mp returns
  obtain ⟨⟨answer', session'⟩, second, returns⟩ := (Option.any_eq_true _ _).mp returns
  obtain ⟨⟨answer'', session''⟩, third⟩ := Option.isSome_iff_exists.mp returns
  have ran := Obfuscates.call 1 (.call 1 (.call 1 (.nil _) first) second) third
  exact ⟨_, _, ran, rfl, (obfuscation_keeps_tree ran).2.1⟩

end Rsvndump
