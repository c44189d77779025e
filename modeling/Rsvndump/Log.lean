import Mathlib.Data.List.Chain
import Rsvndump.Session

/-! The log of a session root (session.c, log.c).

The session is opened on an encoded URL and the prefix is cut out of it. The
paths of the log are not encoded.
-/

set_option autoImplicit false

namespace Rsvndump

open Library

/-! ## Opening a session -/

def percent : CChar := ⟨37, by decide⟩

def hexDigit (n : Nat) : CChar := (cstr "0123456789ABCDEF").getD n percent

/-- The path functions of Subversion; `safe` tells which characters a URL may hold. -/
structure SvnPaths where
  canonicalize : CString → CString
  safe : CChar → Bool

variable (svn : SvnPaths)

/-- `svn_path_uri_encode` -/
def SvnPaths.uriEncode (path : CString) : CString :=
  path.flatMap fun c =>
    if svn.safe c then [c] else [percent, hexDigit (c.byte.toNat / 16), hexDigit (c.byte.toNat % 16)]

/-- `session_open`; `root` is the answer of `svn_ra_get_repos_root`. -/
def sessionOpen (url root : CString) : Session :=
  let encodedUrl := svn.uriEncode (svn.canonicalize url)
  ⟨if encodedUrl = root then [] else encodedUrl.drop (root.length + 1)⟩

/-! ## Receiving a log -/

/-- A path is skipped if it does not match the prefix or if it does and the next character isn't a
slash. -/
def skipsPath (session : Session) (key : CString) : Bool :=
  decide (key.length < 1) || !session.prefixPath.isPrefixOf (key.drop 1) ||
    (decide (0 < session.prefixPath.length) && decide (session.prefixPath.length < (key.drop 1).length) &&
      decide ((key.drop 1)[session.prefixPath.length]? ≠ some slash))

def dropSlash (path : CString) : CString := if path.head? = some slash then path.drop 1 else path

/-- Strips the prefix (or the leading slash) from a path. -/
def stripPath (session : Session) (key : CString) : CString :=
  dropSlash (if session.prefixPath ≠ [] then key.drop (session.prefixPath.length + 1) else key)

/-- The copy of an entry, with the leading slash removed from the copy source. -/
def copyEntry (change : ChangedPath) : ChangedPath :=
  { change with copyfrom := change.copyfrom.map fun source => (dropSlash source.1, source.2) }

def receivePath (session : Session) (paths : AprHash ChangedPath) (entry : (_ : CString) × ChangedPath) :
    AprHash ChangedPath :=
  if skipsPath session entry.1 then paths else paths.insert (stripPath session entry.1) (copyEntry entry.2)

def logReceiver (session : Session) (changedPaths : Option (AprHash ChangedPath)) (revision : Int)
    (author date message : Option CString) : LogRevision where
  revision := revision
  author := author
  date := date
  message := message
  changedPaths :=
    match changedPaths with
    -- an entry without paths still gets an empty table
    | none => some ∅
    | some table => some (table.entries.foldl (receivePath session) ∅)

/-! ## Prefixes -/

/-- The path of `rel` below `base`. -/
def joinPath (base rel : CString) : CString := if rel = [] then base else base ++ slash :: rel

/-- The absolute repository path of `rel` below the session root `p`. -/
def absolutePath (p rel : CString) : CString := slash :: if p = [] then rel else joinPath p rel

/-- A canonical absolute path. -/
def Absolute (key : CString) : Prop := ∃ path, key = slash :: path ∧ path.getLast? ≠ some slash

/-- The session root itself or a path below it. -/
def Inside (p key : CString) : Prop := p = [] ∨ key = slash :: p ∨ (slash :: p) ++ [slash] <+: key

/-- The path of an entry relative to the session root. -/
def relativePath (p key : CString) : CString := if p = [] then key.drop 1 else key.drop (p.length + 2)

theorem uriEncode_append (path more : CString) : svn.uriEncode (path ++ more) = svn.uriEncode path ++ svn.uriEncode more :=
  List.flatMap_append

/-- A canonical path inside a repository. -/
structure CanonicalPath (path : CString) : Prop where
  relative : path.head? ≠ some slash
  closed : path.getLast? ≠ some slash
  single : path.IsChain fun a b => ¬ (a = slash ∧ b = slash)

/-- A source inside the session root is named by its relative path. -/
theorem localPath_inside {p source : CString} (canonical : CanonicalPath source) (inside : Below p source) :
    ∃ rel, deltaGetLocalCopyfromPath p source = some rel ∧ absolutePath p rel = slash :: source := by
  have kept : ∀ rel : CString, rel.head? ≠ some slash → skipSlashes rel = rel := by
    intro rel front
    cases rel with
    | nil => rfl
    | cons c rest =>
      rw [skipSlashes, List.dropWhile_cons_of_neg]
      simpa using front
  rw [deltaGetLocalCopyfromPath, if_pos inside.isPrefix]
  refine ⟨_, rfl, ?_⟩
  unfold absolutePath joinPath
  obtain rfl | rfl | ⟨rest, rfl⟩ := inside
  · simp [kept source canonical.relative]
  · by_cases empty : source = []
    · simp [empty, skipSlashes]
    · simp [empty, skipSlashes]
  · by_cases empty : p = []
    · exact absurd (by simp [empty]) canonical.relative
    · cases rest with
      | nil => exact absurd (by simp) canonical.closed
      | cons c rest =>
        -- a second separator would make the path non-canonical
        have front : (c :: rest).head? ≠ some slash := by
          rintro same
          rw [List.head?_cons, Option.some.injEq] at same
          exact (List.isChain_append.mp canonical.single).2.2 slash (by simp) c (by simp) ⟨rfl, same⟩
        have tail : skipSlashes ((p ++ [slash] ++ c :: rest).drop p.length) = c :: rest := by
          rw [List.append_assoc, List.drop_left]
          rw [skipSlashes, List.singleton_append, List.dropWhile_cons_of_pos (by simp)]
          exact kept (c :: rest) front
        rw [tail]
        simp [empty]

/-- The prefix is the encoded path of the session root. -/
theorem sessionOpen_prefix (separates : svn.safe slash = true) {rootUrl p : CString}
    (canonical : svn.canonicalize (joinPath rootUrl p) = joinPath rootUrl p) :
    (sessionOpen svn (joinPath rootUrl p) (svn.uriEncode rootUrl)).prefixPath = svn.uriEncode p := by
  unfold sessionOpen
  rw [canonical]
  by_cases empty : p = []
  · simp [empty, joinPath, SvnPaths.uriEncode]
  · have encoded : svn.uriEncode (joinPath rootUrl p) = svn.uriEncode rootUrl ++ (slash :: svn.uriEncode p) := by
      rw [joinPath, if_neg empty, uriEncode_append]
      simp [SvnPaths.uriEncode, separates]
    rw [encoded]
    simp

theorem inside_iff {p path : CString} : Inside p (slash :: path) ↔ Below p path := by
  simp [Inside, Below]

/-- The test of `log_receiver` picks the paths inside the prefix. -/
theorem skipsPath_eq_false {session : Session} {key : CString} (absolute : Absolute key) :
    skipsPath session key = false ↔ Inside session.prefixPath key := by
  obtain ⟨path, rfl, -⟩ := absolute
  rw [inside_iff, below_iff_char]
  unfold skipsPath
  by_cases empty : session.prefixPath = []
  · simp [empty]
  · have long : 0 < session.prefixPath.length := List.length_pos_iff.mpr empty
    simp only [empty, long]
    simp only [List.length_cons, List.drop_succ_cons, List.drop_zero, decide_not, Bool.or_eq_false_iff,
      decide_eq_false_iff_not, Nat.not_lt, Nat.le_add_left, Bool.not_eq_false', List.isPrefixOf_iff_prefix,
      true_and, decide_true, Bool.true_and, Bool.and_eq_false_iff, decide_eq_true_eq, false_or,
      List.getElem?_eq_none_iff]

/-- A path inside the prefix is the one its relative path stands for. -/
theorem absolutePath_relativePath {p key : CString} (absolute : Absolute key) (inside : Inside p key) :
    absolutePath p (relativePath p key) = key := by
  obtain ⟨path, rfl, closed⟩ := absolute
  unfold absolutePath relativePath joinPath
  obtain rfl | same | ⟨rest, rfl⟩ := inside_iff.mp inside
  · simp
  · subst same
    by_cases empty : path = []
    · simp [empty]
    · simp [empty, List.drop_eq_nil_of_le]
  · by_cases empty : p = []
    · simp [empty]
    · cases rest with
      | nil => simp at closed
      | cons c rest => simp [empty]

theorem inside_absolutePath (p rel : CString) :
    Inside p (absolutePath p rel) ∧ relativePath p (absolutePath p rel) = rel := by
  unfold absolutePath relativePath joinPath
  rw [inside_iff]
  by_cases empty : p = []
  · simp [empty]
  · by_cases root : rel = []
    · simp [empty, root, List.drop_eq_nil_of_le]
    · simp [empty, root, below_slash]

theorem stripPath_eq {session : Session} {key : CString} (absolute : Absolute key)
    (inside : Inside session.prefixPath key) : stripPath session key = relativePath session.prefixPath key := by
  obtain ⟨path, rfl, -⟩ := absolute
  unfold stripPath relativePath dropSlash
  obtain empty | same | ⟨rest, rfl⟩ := inside_iff.mp inside
  · simp [empty]
  · by_cases empty : session.prefixPath = []
    · simp [empty]
    · simp [empty, same, List.drop_eq_nil_of_le]
  · by_cases empty : session.prefixPath = []
    · simp [empty]
    · simp [empty]

/-- What the loop of `log_receiver` stores under a relative path. -/
theorem lookup_receivePath {session : Session} (entries : List ((_ : CString) × ChangedPath))
    (absolute : ∀ e ∈ entries, Absolute e.1) (distinct : entries.NodupKeys) (paths : AprHash ChangedPath)
    (rel : CString) :
    (entries.foldl (receivePath session) paths).lookup rel =
      ((entries.dlookup (absolutePath session.prefixPath rel)).map copyEntry).or (paths.lookup rel) := by
  induction entries generalizing paths with
  | nil => simp
  | cons e entries ih =>
    obtain ⟨key, change⟩ := e
    obtain ⟨fresh, distinct⟩ := List.nodupKeys_cons.mp distinct
    have own : Absolute key := absolute ⟨key, change⟩ List.mem_cons_self
    rw [List.foldl_cons, ih (fun e member => absolute e (List.mem_cons_of_mem _ member)) distinct]
    by_cases same : absolutePath session.prefixPath rel = key
    · obtain ⟨inside, relative⟩ := inside_absolutePath session.prefixPath rel
      rw [same] at inside relative
      have taken := (skipsPath_eq_false own).mpr inside
      rw [same, List.dlookup_cons_eq, List.dlookup_eq_none.mpr fresh, receivePath, taken, stripPath_eq own inside,
        relative]
      simp
    · rw [List.dlookup_cons_ne _ _ same]
      congr 1
      unfold receivePath
      split
      · rfl
      · next taken =>
        have inside := (skipsPath_eq_false own).mp (by simpa using taken)
        rw [stripPath_eq own inside, AList.lookup_insert_ne]
        intro clash
        rw [clash, absolutePath_relativePath own inside] at same
        exact same rfl

/-! ## Filtering -/

/-- `filed` holds exactly the entries of `table` inside `p`, each under its relative path. -/
structure FiledUnder (p : CString) (table filed : AprHash ChangedPath) : Prop where
  kept : ∀ key change, table.lookup key = some change → Inside p key →
    filed.lookup (relativePath p key) = some (copyEntry change)
  only : ∀ rel change, filed.lookup rel = some change →
    ∃ key, Inside p key ∧ relativePath p key = rel ∧ (table.lookup key).map copyEntry = some change
  apart : ∀ key key', key ∈ table → key' ∈ table → Inside p key → Inside p key' →
    relativePath p key = relativePath p key' → key = key'

theorem filedUnder_iff {p : CString} {table filed : AprHash ChangedPath} (absolute : ∀ key ∈ table, Absolute key) :
    FiledUnder p table filed ↔ ∀ rel, filed.lookup rel = (table.lookup (absolutePath p rel)).map copyEntry := by
  have listed : ∀ key change, table.lookup key = some change → key ∈ table := fun key change found =>
    AList.lookup_isSome.mp (by rw [found]; rfl)
  constructor
  · intro files rel
    obtain ⟨inside, relative⟩ := inside_absolutePath p rel
    cases found : filed.lookup rel with
    | some change =>
      obtain ⟨key, within, rfl, entry⟩ := files.only rel change found
      obtain ⟨original, present, -⟩ := Option.map_eq_some_iff.mp entry
      rw [absolutePath_relativePath (absolute key (listed key original present)) within, entry]
    | none =>
      cases present : table.lookup (absolutePath p rel) with
      | none => rfl
      | some change =>
        have := files.kept _ change present inside
        rw [relative, found] at this
        cases this
  · intro lookups
    refine ⟨fun key change found inside => ?_, fun rel change found => ?_, fun key key' member member' inside inside' same => ?_⟩
    · rw [lookups, absolutePath_relativePath (absolute key (listed key change found)) inside, found]
      rfl
    · obtain ⟨inside, relative⟩ := inside_absolutePath p rel
      exact ⟨absolutePath p rel, inside, relative, by rw [← lookups, found]⟩
    · rw [← absolutePath_relativePath (absolute key member) inside, same,
        absolutePath_relativePath (absolute key' member') inside']

def Files (p : CString) (table : AprHash ChangedPath) (log : LogRevision) : Prop :=
  ∃ filed, log.changedPaths = some filed ∧ FiledUnder p table filed

/-- The table says the same about the paths below `p` and below `q`. -/
def AlikeBelow (p q : CString) (table : AprHash ChangedPath) : Prop :=
  ∀ rel, (table.lookup (absolutePath q rel)).map copyEntry = (table.lookup (absolutePath p rel)).map copyEntry

/-- What is received in a session on the path `p` of a repository. -/
def received (rootUrl p : CString) (table : AprHash ChangedPath) (revision : Int)
    (author date message : Option CString) : LogRevision :=
  logReceiver (sessionOpen svn (joinPath rootUrl p) (svn.uriEncode rootUrl)) (some table) revision author date message

section Session

variable {svn : SvnPaths} {rootUrl p : CString} {revision : Int} {author date message : Option CString}

theorem files_iff_alike (separates : svn.safe slash = true)
    (canonical : svn.canonicalize (joinPath rootUrl p) = joinPath rootUrl p) {table : AprHash ChangedPath}
    (absolute : ∀ key ∈ table, Absolute key) :
    Files p table (received svn rootUrl p table revision author date message) ↔
      AlikeBelow p (svn.uriEncode p) table := by
  have listed : ∀ e ∈ table.entries, Absolute e.1 := fun e member => absolute e.1 (List.mem_keys_of_mem member)
  have encoded := sessionOpen_prefix svn separates canonical
  unfold Files received
  generalize sessionOpen svn (joinPath rootUrl p) (svn.uriEncode rootUrl) = session at encoded ⊢
  have stored := @lookup_receivePath session table.entries listed table.nodupKeys ∅
  rw [encoded] at stored
  simp only [AList.lookup_empty, Option.or_none] at stored
  simp only [logReceiver, Option.some.injEq, exists_eq_left', filedUnder_iff absolute, stored]
  rfl

theorem absolutePath_nil (q : CString) : absolutePath q [] = slash :: q := by
  unfold absolutePath joinPath
  split
  · next empty => rw [empty]
  · rfl

/-- A table is filed under the session root exactly if it says the same about the encoded path of
the root. This is so for every table exactly if no character of the path is encoded. -/
theorem log_receiver_files_iff (separates : svn.safe slash = true)
    (canonical : svn.canonicalize (joinPath rootUrl p) = joinPath rootUrl p) (closed : p.getLast? ≠ some slash) :
    (∀ table, (∀ key ∈ table, Absolute key) →
      (Files p table (received svn rootUrl p table revision author date message) ↔
        AlikeBelow p (svn.uriEncode p) table)) ∧
    ((∀ table, (∀ key ∈ table, Absolute key) →
      Files p table (received svn rootUrl p table revision author date message)) ↔ svn.uriEncode p = p) := by
  refine ⟨fun table absolute => files_iff_alike separates canonical absolute, ⟨fun all => ?_, fun same table absolute => ?_⟩⟩
  · -- the root itself is filed only under a prefix that is its path
    have absolute : ∀ key ∈ (AList.insert (slash :: p) ⟨.modify, none⟩ ∅ : AprHash ChangedPath), Absolute key := by
      intro key member
      rw [AList.mem_insert, or_iff_left (AList.notMem_empty key)] at member
      exact ⟨p, member, closed⟩
    have alike := (files_iff_alike separates canonical absolute).mp (all _ absolute) []
    rw [absolutePath_nil, absolutePath_nil, AList.lookup_insert] at alike
    by_contra differs
    rw [AList.lookup_insert_ne (by simpa using differs)] at alike
    cases alike
  · rw [files_iff_alike separates canonical absolute, AlikeBelow, same]
    exact fun rel => rfl

end Session

/-- The characters Subversion leaves in a URL. -/
def uriSafe (c : CChar) : Bool :=
  (decide (48 ≤ c.byte) && decide (c.byte ≤ 57)) || (decide (65 ≤ c.byte) && decide (c.byte ≤ 90)) ||
    (decide (97 ≤ c.byte) && decide (c.byte ≤ 122)) || decide (c ∈ cstr "!$&'()*+,-./:=@_~")

def plainPaths : SvnPaths := ⟨id, uriSafe⟩

def logOf (path : CString) : AprHash ChangedPath := AList.insert path ⟨.add, none⟩ ∅

theorem log_receiver_files_trunk :
    (∀ c ∈ cstr "trunk", plainPaths.safe c = true) ∧ ∀ table, (∀ key ∈ table, Absolute key) →
      Files (cstr "trunk") table (received plainPaths (cstr "file:///r") (cstr "trunk") table 1 none none none) := by
  have files := @log_receiver_files_iff plainPaths (cstr "file:///r") (cstr "trunk") 1 none none none
    (by decide) rfl (by decide)
  exact ⟨by decide, files.2.mpr (by decide)⟩

/-- A name with a space in it: the session root is added and its log entry is skipped. -/
theorem log_receiver_skips_encoded :
    (∀ key ∈ logOf (cstr "/a b"), Absolute key) ∧
      ¬ Files (cstr "a b") (logOf (cstr "/a b"))
        (received plainPaths (cstr "file:///r") (cstr "a b") (logOf (cstr "/a b")) 1 none none none) := by
  have absolute : ∀ key ∈ logOf (cstr "/a b"), Absolute key := by
    intro key member
    rw [logOf, AList.mem_insert, or_iff_left (AList.notMem_empty key)] at member
    exact ⟨cstr "a b", member, by decide⟩
  refine ⟨absolute, fun files => ?_⟩
  have alike := (files_iff_alike (by decide) rfl absolute).mp files []
  exact absurd alike (by decide)

end Rsvndump
