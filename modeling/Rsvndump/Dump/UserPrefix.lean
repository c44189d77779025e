import Mathlib.Data.List.Chain
import Rsvndump.Delta.RootProps
import Rsvndump.Dump.Calls
import Rsvndump.Dump.CopySource
import Rsvndump.Dump.Framing
import Rsvndump.Library.PathNames

/-! The directories of the user prefix (`dump_create_user_prefix`). -/

set_option autoImplicit false

namespace Rsvndump

open Library

/-! ## The scanner -/

/-- The directories of a prefix: its non-empty components in front of the last separator. -/
def prefixNames (path : CString) : List CString := (path.splitOn slash).dropLast.filter (· ≠ [])

/-- The text behind the last separator. -/
def prefixRest (path : CString) : CString := ((path.splitOn slash).getLast?).getD []

def prefixDirs (path : CString) : List CString :=
  (List.range (prefixNames path).length).map fun i => joined ((prefixNames path).take (i + 1))

def cleanPrefix (path : CString) : CString := (prefixNames path).flatMap (· ++ [slash]) ++ prefixRest path

/-- A string is what follows its last separator, or a component in front of one. -/
theorem components_induction {holds : CString → Prop} (rest : ∀ s, slash ∉ s → holds s)
    (component : ∀ name s, slash ∉ name → holds s → holds (name ++ slash :: s)) (s : CString) : holds s := by
  induction size : s.length using Nat.strong_induction_on generalizing s with
  | _ n ih =>
    by_cases split : slash ∈ s
    · obtain ⟨name, tail, rfl, plain⟩ := List.eq_append_cons_of_mem split
      exact component name tail plain (ih tail.length (by simp at size; omega) tail rfl)
    · exact rest s split

theorem prefixNames_rest {s : CString} (plain : slash ∉ s) : prefixNames s = [] := by
  rw [prefixNames, List.splitOn_eq_singleton plain]
  rfl

theorem prefixNames_component {name : CString} (plain : slash ∉ name) (s : CString) :
    prefixNames (name ++ slash :: s) = if name = [] then prefixNames s else name :: prefixNames s := by
  rw [prefixNames, List.splitOn_append_cons_self_of_not_mem plain, List.dropLast_cons_of_ne_nil (List.splitOn_ne_nil _ _),
    List.filter_cons]
  by_cases empty : name = []
  · simp [empty, prefixNames]
  · simp [empty, prefixNames]

theorem cleanPrefix_rest {s : CString} (plain : slash ∉ s) : cleanPrefix s = s := by
  rw [cleanPrefix, prefixNames_rest plain, prefixRest, List.splitOn_eq_singleton plain]
  rfl

theorem cleanPrefix_component {name : CString} (plain : slash ∉ name) (s : CString) :
    cleanPrefix (name ++ slash :: s) = if name = [] then cleanPrefix s else name ++ slash :: cleanPrefix s := by
  have rest : prefixRest (name ++ slash :: s) = prefixRest s := by
    rw [prefixRest, List.splitOn_append_cons_self_of_not_mem plain,
      List.getLast?_cons_of_ne_nil (List.splitOn_ne_nil _ _), prefixRest]
  rw [cleanPrefix, prefixNames_component plain, rest]
  split <;> simp [cleanPrefix]

/-- The paths the loop prints behind `base` for the names that are left. -/
def cumulated : CString → List CString → List CString
  | _, [] => []
  | base, name :: rest => (base ++ name) :: cumulated (base ++ name ++ [slash]) rest

theorem cumulated_eq (base : CString) (names : List CString) :
    cumulated base names = (List.range names.length).map fun i => base ++ joined (names.take (i + 1)) := by
  induction names generalizing base with
  | nil => rfl
  | cons name rest ih =>
    rw [cumulated, ih, List.length_cons, List.range_succ_eq_map, List.map_cons, List.map_map]
    refine congrArg₂ List.cons (by simp [joined]) (List.map_congr_left fun i member => ?_)
    have more : rest.take (i + 1) ≠ [] := by
      have inside := List.mem_range.mp member
      exact List.ne_nil_of_length_pos (by rw [List.length_take]; omega)
    simp only [Function.comp_apply, List.take_succ_cons, joined_cons name more]
    simp

theorem userPrefixLoop_eq {fuel : Nat} {s : CString} (enough : s.length ≤ fuel) (new : CString) :
    userPrefixLoop fuel new s = (cumulated new (prefixNames s), new ++ cleanPrefix s) := by
  induction fuel generalizing s new with
  | zero =>
    obtain rfl := List.eq_nil_of_length_eq_zero (Nat.le_zero.mp enough)
    rw [userPrefixLoop, prefixNames_rest List.not_mem_nil, cleanPrefix_rest List.not_mem_nil]
    rfl
  | succ fuel ih =>
    rw [userPrefixLoop]
    by_cases split : slash ∈ s
    · obtain ⟨name, tail, rfl, plain⟩ := List.eq_append_cons_of_mem split
      have component : (name ++ slash :: tail).takeWhile (· ≠ slash) = name := by
        rw [List.takeWhile_append_of_pos fun c member => by simpa using ne_of_mem_of_not_mem member plain]
        simp
      have shorter : tail.length ≤ fuel := by
        simp only [List.length_append, List.length_cons] at enough
        omega
      simp only [if_pos split, component, prefixNames_component plain, cleanPrefix_component plain]
      by_cases leading : name = []
      · subst leading
        simpa using ih shorter new
      · have long : ¬ name.length < 1 := by simpa using leading
        have behind : (name ++ slash :: tail).drop (name.length + 1) = tail := by
          rw [← List.drop_drop, List.drop_left, List.drop_succ_cons, List.drop_zero]
        simp only [if_neg long, if_neg leading, behind, ih shorter, cumulated]
        simp
    · rw [if_neg split, prefixNames_rest split, cleanPrefix_rest split]
      rfl

/-- The loop prints the directories of the prefix and leaves the clean prefix. -/
theorem userPrefixLoop_spec (path : CString) :
    userPrefixLoop path.length [] path = (prefixDirs path, cleanPrefix path) := by
  rw [userPrefixLoop_eq (Nat.le_refl _), cumulated_eq, prefixDirs]
  rfl

/-! ## The clean prefix -/

theorem plain_prefixNames (path : CString) : ∀ name ∈ prefixNames path, PlainName name := by
  induction path using components_induction with
  | rest s plain => simp [prefixNames_rest plain]
  | component name s plain ih =>
    rw [prefixNames_component plain]
    split
    · exact ih
    · next nonempty => exact List.forall_mem_cons.mpr ⟨⟨nonempty, plain⟩, ih⟩

/-- Directories come before those below them. -/
theorem prefixDirs_parents (path : CString) :
    (prefixDirs path).Pairwise fun earlier later => Below earlier later ∧ earlier ≠ later := by
  have plain := plain_prefixNames path
  have front : ∀ n, ∀ name ∈ (prefixNames path).take n, PlainName name := fun n name member => plain name (List.mem_of_mem_take member)
  rw [prefixDirs, List.pairwise_map]
  refine List.pairwise_lt_range.imp_of_mem fun {i j} _ member before => ?_
  have inside := List.mem_range.mp member
  refine ⟨(below_joined (front _) (front _)).mpr (List.take_prefix_take_left (by omega)), fun same => ?_⟩
  have lengths := congrArg List.length (joined_injective (front _) (front _) same)
  rw [List.length_take, List.length_take] at lengths
  omega

theorem cleanPrefix_length (path : CString) : (cleanPrefix path).length ≤ path.length := by
  induction path using components_induction with
  | rest s plain => rw [cleanPrefix_rest plain]
  | component name s plain ih =>
    rw [cleanPrefix_component plain]
    split <;> simp only [List.length_append, List.length_cons] <;> omega

theorem cleanPrefix_head (path : CString) : (cleanPrefix path).head? ≠ some slash := by
  have plainHead : ∀ {name : CString}, slash ∉ name → name.head? ≠ some slash := fun plain first =>
    plain (List.mem_of_head? first)
  induction path using components_induction with
  | rest s plain =>
    rw [cleanPrefix_rest plain]
    exact plainHead plain
  | component name s plain ih =>
    rw [cleanPrefix_component plain]
    split
    · exact ih
    · next nonempty =>
      rw [List.head?_append_of_ne_nil _ nonempty]
      exact plainHead plain

/-- No two separators stand side by side. -/
def SingleSlashes (path : CString) : Prop := path.IsChain fun a b => ¬ (a = slash ∧ b = slash)

theorem singleSlashes_plain {name : CString} (plain : slash ∉ name) : SingleSlashes name := by
  refine List.Pairwise.isChain (List.pairwise_of_forall_mem_list fun a member b _ both => ?_)
  exact plain (both.1 ▸ member)

theorem cleanPrefix_single (path : CString) : SingleSlashes (cleanPrefix path) := by
  induction path using components_induction with
  | rest s plain =>
    rw [cleanPrefix_rest plain]
    exact singleSlashes_plain plain
  | component name s plain ih =>
    rw [cleanPrefix_component plain]
    split
    · exact ih
    · refine List.isChain_append.mpr ⟨singleSlashes_plain plain, ?_, ?_⟩
      · refine List.isChain_cons.mpr ⟨fun c first both => ?_, ih⟩
        exact cleanPrefix_head s (both.2 ▸ first)
      · intro a last b _ both
        exact plain (both.1 ▸ List.mem_of_getLast? last)

/-! ## The stream -/

variable {sys : Platform}

/-- The number of a revision header. -/
def Output.number : Output → Option Int
  | .revision _ number => some number
  | .padding number => some number
  | _ => none

/-- A stream without a revision 1 and without directories of the prefix. -/
structure NoFirst (out : List Output) : Prop where
  numbers : ∀ o ∈ out, o.number ≠ some 1
  dirs : ∀ dir, .prefixDir dir ∉ out

/-- The record of the root. -/
def RootOnly (given : Option CString) (record : NodeRecord) : Prop :=
  record.path = given.getD [] ++ [slash] ∧ record.copyfrom = none

/-- A record whose paths are printed behind a prefix. -/
structure Prefixed (front : CString) (record : NodeRecord) : Prop where
  path : ∃ rel, record.path = front ++ rel
  copyfrom : ∀ source ∈ record.copyfrom, ∃ rel, source.1 = front ++ rel

/-- The directories and the prefix that --prefix stands for. -/
def givenDirs (given : Option CString) : List CString := given.elim [] prefixDirs

def givenPrefix (given : Option CString) : CString := given.elim [] cleanPrefix

/-- Revision 1 has not been printed, and the prefix is the argument of --prefix. -/
structure PrefixGiven (given : Option CString) (out : List Output) (now : Option CString) : Prop where
  now : now = given
  absent : NoFirst out
  nodes : ∀ record, .node record ∈ out → RootOnly given record

/-- Revision 1 has been printed once, and the directories once right behind its header. -/
structure PrefixMade (given : Option CString) (out : List Output) (now : Option CString) : Prop where
  now : now = given.map cleanPrefix
  split : ∃ front first back, out = front ++ first :: ((givenDirs given).map .prefixDir ++ back) ∧
    PrefixGiven given front given ∧ first.number = some 1 ∧ NoFirst back ∧
      ∀ record, .node record ∈ back → Prefixed (givenPrefix given) record

theorem NoFirst.append {out more : List Output} (some : NoFirst out) (others : NoFirst more) : NoFirst (out ++ more) where
  numbers := List.forall_mem_append.mpr ⟨some.numbers, others.numbers⟩
  dirs := fun dir member => (List.mem_append.mp member).elim (some.dirs dir) (others.dirs dir)

theorem noFirst_header {o : Output} {n : Int} (number : o.number = some n) (other : n ≠ 1) : NoFirst [o] where
  numbers := by simpa [number] using other
  dirs := by
    intro dir member
    rw [← List.mem_singleton.mp member] at number
    cases number

theorem noFirst_nodes (records : List NodeRecord) : NoFirst (records.map .node) where
  numbers := by
    intro o member
    obtain ⟨record, -, rfl⟩ := List.mem_map.mp member
    exact fun wrong => by cases wrong
  dirs := by simp

theorem node_ne_header {o : Output} {n : Int} (number : o.number = some n) (record : NodeRecord) : .node record ∉ [o] := by
  intro member
  rw [← List.mem_singleton.mp member] at number
  cases number

variable {given now : Option CString} {out more : List Output}

theorem PrefixGiven.append (before : PrefixGiven given out now) (others : NoFirst more)
    (nodes : ∀ record, .node record ∈ more → RootOnly given record) : PrefixGiven given (out ++ more) now where
  now := before.now
  absent := before.absent.append others
  nodes := fun record member => (List.mem_append.mp member).elim (before.nodes record) (nodes record)

theorem PrefixMade.append (made : PrefixMade given out now) (others : NoFirst more)
    (nodes : ∀ record, .node record ∈ more → Prefixed (givenPrefix given) record) : PrefixMade given (out ++ more) now where
  now := made.now
  split := by
    obtain ⟨front, first, back, rfl, before, number, later, behind⟩ := made.split
    refine ⟨front, first, back ++ more, by simp, before, number, later.append others, fun record member => ?_⟩
    exact (List.mem_append.mp member).elim (behind record) (nodes record)

/-! ## Revision headers -/

/-- The state of the prefix while the next header is numbered `next`. -/
def PrefixUpTo (given : Option CString) (next : Int) (st : DumpState sys) : Prop :=
  st.opts.initialDryRun = false ∧
    ((next ≤ 1 ∧ PrefixGiven given st.out st.opts.userPrefix) ∨ (2 ≤ next ∧ PrefixMade given st.out st.opts.userPrefix))

/-- `dump_create_user_prefix` behind the header of revision 1. -/
theorem PrefixGiven.create {st : DumpState sys} {first : Output} (before : PrefixGiven given st.out st.opts.userPrefix)
    (number : first.number = some 1) {delta : DeltaState sys} :
    PrefixMade given (dumpCreateUserPrefix { st with out := st.out ++ [first], delta := delta }).out
      (dumpCreateUserPrefix { st with out := st.out ++ [first], delta := delta }).opts.userPrefix := by
  have front : PrefixGiven given st.out given := ⟨rfl, before.absent, before.nodes⟩
  have back : NoFirst [] := ⟨by simp, by simp⟩
  unfold dumpCreateUserPrefix
  rw [before.now]
  cases given with
  | none => exact ⟨before.now, st.out, first, [], by simp [givenDirs], front, number, back, by simp⟩
  | some path =>
    refine ⟨?_, st.out, first, [], ?_, front, number, back, by simp⟩
    · simp [userPrefixLoop_spec]
    · simp [userPrefixLoop_spec, givenDirs]

/-- A header, and the prefix if it is that of revision 1. -/
theorem PrefixUpTo.header {st : DumpState sys} (before : PrefixUpTo given st.localRev st) {o : Output}
    (number : o.number = some st.localRev) (delta : DeltaState sys) :
    PrefixUpTo given (st.localRev + 1) (setupPrefix { st with out := st.out ++ [o], delta := delta }) := by
  obtain ⟨wet, ⟨low, before⟩ | ⟨high, made⟩⟩ := before
  · by_cases first : st.localRev = 1
    · have wet' : (dumpCreateUserPrefix { st with out := st.out ++ [o], delta := delta }).opts.initialDryRun = false := by
        unfold dumpCreateUserPrefix
        split <;> exact wet
      rw [setupPrefix, if_pos first]
      exact ⟨wet', .inr ⟨by omega, before.create (first ▸ number)⟩⟩
    · rw [setupPrefix, if_neg first]
      refine ⟨wet, .inl ⟨by omega, before.append (noFirst_header number first) fun record member => ?_⟩⟩
      exact absurd member (node_ne_header number record)
  · have first : st.localRev ≠ 1 := by omega
    rw [setupPrefix, if_neg first]
    refine ⟨wet, .inr ⟨by omega, made.append (noFirst_header number first) fun record member => ?_⟩⟩
    exact absurd member (node_ne_header number record)

theorem PrefixUpTo.padRevisions {st : DumpState sys} (before : PrefixUpTo given st.localRev st) (n : Nat) :
    PrefixUpTo given (padRevisions n st).localRev (padRevisions n st) := by
  induction n generalizing st with
  | zero => exact before
  | succ n ih =>
    have number := (padRevision_control st).2.1
    refine @ih (padRevision st) ?_
    rw [number]
    exact before.header rfl _

theorem PrefixUpTo.opened {server : Server} {st opened : DumpState sys} {log : LogRevision}
    (before : PrefixUpTo given st.localRev st) (opens : openRevision server st = .ok (log, opened)) :
    PrefixUpTo given (opened.localRev + 1) opened := by
  obtain ⟨mid, next, opens⟩ := bind_eq_ok.mp opens
  obtain ⟨log', -, opens⟩ := bind_eq_ok.mp opens
  cases opens
  obtain ⟨opts, number, out, -⟩ := nextLog_control next
  have same : PrefixUpTo given mid.localRev mid := by
    unfold PrefixUpTo
    rw [opts, number, out]
    exact before
  have padded : PrefixUpTo given (padTo log.revision mid).localRev (padTo log.revision mid) := by
    unfold padTo
    split
    · exact same.padRevisions _
    · exact same
  rw [(printHeader_control log _).2.1]
  unfold printHeader
  rw [if_neg (by simp [padded.1])]
  exact padded.header rfl _

/-! ## Records -/

theorem Writes.prefixed {baton : DeBaton} {node : DeNode} {st mid : DeltaState sys} {record : NodeRecord}
    (writes : Writes baton node st record mid) : Prefixed (baton.opts.userPrefix.getD []) record where
  path := ⟨node.path, writes.path⟩
  copyfrom := by
    have source : ∀ body, ∀ source ∈ (presentRecord baton node body).copyfrom,
        ∃ rel, source.1 = baton.opts.userPrefix.getD [] ++ rel := by
      intro body source member
      obtain ⟨printed, -, rfl⟩ := Option.map_eq_some_iff.mp member
      exact ⟨printed.1, rfl⟩
    cases writes with
    | deleted => exact fun _ wrong => by cases wrong
    | unchanged => exact source _
    | text => exact source _
    | props => exact source _

/-- An edit that changes nothing but the root leaves records of the root only. -/
theorem runEdit_rootOnly {baton : DeBaton} {edit : Edit} {st st' : DeltaState sys} (wet : baton.opts.initialDryRun = false)
    (bare : edit.children = .done) (quiet : ∀ path, ¬ baton.logRevision.deletes path)
    (ran : runEdit baton edit st = .ok st') : ∀ record ∈ st'.out, RootOnly baton.opts.userPrefix record := by
  obtain ⟨root, before, after, start, dumps, records, out, others⟩ :=
    @runEdit_records sys baton (fun _ => False) edit st st' (by simp [bare, Drive.paths]) quiet ran
  obtain rfl : records = [] := by
    refine List.eq_nil_iff_forall_not_mem.mpr fun record member => ?_
    obtain ⟨node, st, mid, wrong, -⟩ := others record member
    exact wrong
  rw [out, List.append_nil]
  rcases dumpRoot_cases wet dumps with ⟨-, same⟩ | ⟨-, last, record, content, -, same, path, -, single⟩
  · simp [same, start]
  · intro other member
    rw [same, start, List.nil_append, List.mem_singleton] at member
    rw [member]
    exact ⟨path, single⟩

/-! ## Rounds -/

variable {server : Server} {session : Session}

/-- Revision 0 is the empty root directory. -/
structure BareStart (server : Server) : Prop where
  log : ∀ log ∈ server.logs, log.revision = 0 → ∀ path, ¬ log.deletes path
  tree : (server.diff 0 0 true).children = .done

/-- A round prints the records of the root only or comes behind revision 1. -/
theorem PrefixUpTo.step {st st' : DumpState sys} (before : PrefixUpTo given st.localRev st)
    (bare : ∀ log opened, openRevision server st = .ok (log, opened) → opened.localRev ≤ 0 →
      (∀ path, ¬ log.deletes path) ∧
        (server.diff (diffBase opened) log.revision (opened.globalRev = opened.opts.start)).children = .done)
    (ran : dumpStep server session st = .ok st') : PrefixUpTo given st'.localRev st' := by
  obtain ⟨⟨log, opened⟩, opens, ran⟩ := bind_eq_ok.mp ran
  obtain ⟨edited, edits, ran⟩ := bind_eq_ok.mp ran
  obtain ⟨committed, commits, ran⟩ := bind_eq_ok.mp ran
  obtain ⟨store, -, ran⟩ := bind_eq_ok.mp ran
  cases ran
  obtain ⟨delta, edit, edits⟩ := bind_eq_ok.mp edits
  cases edits
  obtain ⟨wet, cases'⟩ := before.opened opens
  have same : committed.opts = opened.opts ∧ committed.localRev = opened.localRev ∧
      committed.out = opened.out ++ delta.out.map .node := by
    unfold commitRevision at commits
    rw [if_neg (by simp [wet])] at commits
    cases commits
    exact ⟨rfl, rfl, rfl⟩
  obtain ⟨opts, number, out⟩ := same
  refine ⟨rfl, ?_⟩
  simp only [opts, number, out]
  have printed : ∀ {holds : NodeRecord → Prop}, (∀ record ∈ delta.out, holds record) →
      ∀ record, .node record ∈ delta.out.map Output.node → holds record := by
    intro holds all record member
    obtain ⟨record', listed, same⟩ := List.mem_map.mp member
    cases same
    exact all record listed
  rcases cases' with ⟨low, front⟩ | ⟨high, made⟩
  · obtain ⟨quiet, done⟩ := bare log opened opens (by omega)
    refine .inl ⟨low, front.append (noFirst_nodes _) (printed ?_)⟩
    have roots := runEdit_rootOnly (by exact wet) done quiet edit
    rwa [show (editorBaton session opened log).opts.userPrefix = given from front.now] at roots
  · refine .inr ⟨high, made.append (noFirst_nodes _) (printed fun record member => ?_)⟩
    obtain ⟨node, state, mid, -, writes⟩ := runEdit_written edit record member
    have shown := writes.prefixed
    rw [show (editorBaton session opened log).opts.userPrefix = _ from made.now] at shown
    cases given <;> exact shown

/-- The round that is numbered 0 is the first one of a dump from revision 0 on. -/
structure Fresh (session : Session) (st : DumpState sys) : Prop where
  localRev : st.localRev = 0
  globalRev : st.globalRev = 0
  start : st.opts.start = 0
  growing : st.logsFetched = false
  root : session.prefixPath = []

theorem Fresh.bare (increasing : Increasing session server)
    (rooted : session.prefixPath = [] → ∃ log ∈ server.logs, log.revision = 0) (empty : BareStart server)
    {st opened : DumpState sys} (fresh : Fresh session st) {log : LogRevision}
    (opens : openRevision server st = .ok (log, opened)) :
    (∀ path, ¬ log.deletes path) ∧
      (server.diff (diffBase opened) log.revision (opened.globalRev = opened.opts.start)).children = .done := by
  have fetched := ((openRevision_logs opens).2 fresh.growing).2
  have member := logFetchSingle_mem fetched
  obtain ⟨zero, listed, same⟩ := rooted fresh.root
  have nonneg := increasing.2 log member
  have first : log.revision = 0 := by
    rw [fresh.globalRev, logFetchSingle, orError_eq_ok] at fetched
    by_cases valid : 0 ≤ st.opts.stop
    · rw [svnRaGetLog_zero increasing valid] at fetched
      have low := head_le (increasing.logs.sublist List.filter_sublist) fetched
        (List.mem_filter.mpr ⟨listed, by simpa [same] using valid⟩)
      omega
    · rw [svnRaGetLog_of_nonneg _ _ (Int.le_refl 0), if_neg valid] at fetched
      have bounds := (List.mem_filter.mp (List.mem_reverse.mp (List.mem_of_head? fetched))).2
      simp only [decide_eq_true_eq] at bounds
      omega
  obtain ⟨mid, next, -, control, -⟩ := openRevision_control opens
  obtain ⟨opts, -, -, -, globalRev, -⟩ := nextLog_control next
  have start : opened.opts.start = 0 := by
    rw [control_field control.opts DumpOptions.start fun _ => rfl, opts, fresh.start]
  have current : opened.globalRev = 0 := by rw [control.globalRev, globalRev, fresh.globalRev]
  refine ⟨empty.log log member first, ?_⟩
  have base : diffBase opened = 0 := by simp [diffBase, start, current]
  rw [base, first, current, start]
  exact empty.tree

/-- What a round starts from. -/
structure PrefixRound (given : Option CString) (session : Session) (st : DumpState sys) : Prop where
  upTo : PrefixUpTo given st.localRev st
  fresh : st.localRev ≤ 0 → Fresh session st

theorem PrefixRound.bare (increasing : Increasing session server)
    (rooted : session.prefixPath = [] → ∃ log ∈ server.logs, log.revision = 0) (empty : BareStart server)
    {st : DumpState sys} (round : PrefixRound given session st) (log : LogRevision) (opened : DumpState sys)
    (opens : openRevision server st = .ok (log, opened)) (low : opened.localRev ≤ 0) :
    (∀ path, ¬ log.deletes path) ∧
      (server.diff (diffBase opened) log.revision (opened.globalRev = opened.opts.start)).children = .done := by
  obtain ⟨-, -, -, -, number, -⟩ := openRevision_control opens
  have before : st.localRev ≤ 0 := by
    simp only [number, roundNumber, printedNumber] at low
    split at low
    · exact low
    · split at low <;> omega
  exact (round.fresh before).bare increasing rooted empty opens

theorem PrefixRound.setup {range : DumpOptions} (positive : session.prefixPath.length > 0 → range.start ≠ 0)
    (wet : range.initialDryRun = false) :
    PrefixRound range.userPrefix session (setupFull server session range : DumpState sys) := by
  rw [setupFull_fields server session positive]
  have header : NoFirst (fileHeader server session range false) ∧
      ∀ record, .node record ∉ fileHeader server session range false := by
    unfold fileHeader
    split
    · split <;> exact ⟨⟨by simp [Output.number], by simp⟩, by simp⟩
    · exact ⟨⟨by simp, by simp⟩, by simp⟩
  have low : (if range.start = 0 then 0 else 1 : Int) ≤ 1 := by split <;> omega
  refine ⟨⟨wet, .inl ⟨low, rfl, header.1, fun record member => absurd member (header.2 record)⟩⟩, fun zero => ?_⟩
  have start : range.start = 0 := by
    by_contra later
    simp [later] at zero
  refine ⟨if_pos start, start, start, rfl, ?_⟩
  by_contra sub
  exact positive (List.length_pos_iff.mpr sub) start

theorem PrefixRound.step (increasing : Increasing session server)
    (rooted : session.prefixPath = [] → ∃ log ∈ server.logs, log.revision = 0) (empty : BareStart server)
    {st st' : DumpState sys} (valid : 0 ≤ st.localRev) (round : PrefixRound given session st)
    (ran : dumpStep server session st = .ok st') : PrefixRound given session st' ∧ 0 ≤ st'.localRev := by
  obtain ⟨log, opened, opens, -, -, -, -, -, number, -⟩ := dumpStep_control ran
  have low : 1 ≤ st'.localRev := by
    rw [number, roundNumber, printedNumber]
    split
    · omega
    · split <;> omega
  exact ⟨⟨round.upTo.step (round.bare increasing rooted empty) ran, fun wrong => by omega⟩, by omega⟩

theorem Reached.prefixRound (increasing : Increasing session server)
    (rooted : session.prefixPath = [] → ∃ log ∈ server.logs, log.revision = 0) (empty : BareStart server)
    {opts : DumpOptions} (whole : opts.incremental = false) (wet : opts.initialDryRun = false) {st : DumpState sys}
    (reached : Reached server session opts st) : PrefixRound opts.userPrefix session st ∧ 0 ≤ st.localRev := by
  induction reached with
  | setup ran =>
    obtain ⟨range, adjusted, -, full⟩ := dumpSetup_ok ran
    obtain ⟨shape, -⟩ := adjustRange_start adjusted
    have positive := adjustRange_positive increasing adjusted
    have userPrefix : range.userPrefix = opts.userPrefix := by
      rw [shape, DumpOptions.formatted]
      split <;> rfl
    have dry : range.initialDryRun = false := by
      rw [shape, DumpOptions.formatted]
      split <;> exact wet
    rw [full (by simp [startMid, whole]), ← userPrefix]
    refine ⟨.setup positive dry, ?_⟩
    rw [setupFull_fields server session positive]
    dsimp only
    split <;> omega
  | round _ ran _ ih => exact PrefixRound.step increasing rooted empty ih.2 ih.1 ran

/-! ## Whole dumps -/

/-- The directories and the prefix that are made of an argument of --prefix. -/
structure CleanPrefix (path : CString) : Prop where
  parents : (prefixDirs path).Pairwise fun earlier later => Below earlier later ∧ earlier ≠ later
  relative : (cleanPrefix path).head? ≠ some slash
  single : SingleSlashes (cleanPrefix path)
  shorter : (cleanPrefix path).length ≤ path.length

/-- The prefix is made once and in revision 1. A record is one of the root, or the directories
of its prefix are in the stream in front of it. -/
structure PrefixOnce (given : Option CString) (st : DumpState sys) : Prop where
  once : PrefixGiven given st.out st.opts.userPrefix ∨ PrefixMade given st.out st.opts.userPrefix
  nodes : ∀ front record back, st.out = front ++ .node record :: back → RootOnly given record ∨
    Prefixed (givenPrefix given) record ∧ ∀ dir ∈ givenDirs given, .prefixDir dir ∈ front

theorem PrefixMade.nodes (made : PrefixMade given out now) {front back : List Output} {record : NodeRecord}
    (split : out = front ++ .node record :: back) : RootOnly given record ∨
      Prefixed (givenPrefix given) record ∧ ∀ dir ∈ givenDirs given, .prefixDir dir ∈ front := by
  obtain ⟨before, first, after, whole, given', number, -, behind⟩ := made.split
  have same : (before ++ first :: (givenDirs given).map .prefixDir) ++ after = front ++ .node record :: back := by
    rw [← split, whole]
    simp
  have behindDirs : ∀ more, front = before ++ first :: (givenDirs given).map Output.prefixDir ++ more →
      ∀ dir ∈ givenDirs given, Output.prefixDir dir ∈ front := by
    rintro more rfl dir member
    have shown : Output.prefixDir dir ∈ (givenDirs given).map Output.prefixDir := List.mem_map_of_mem member
    exact List.mem_append_left _ (List.mem_append_right _ (List.mem_cons_of_mem _ shown))
  rcases List.append_eq_append_iff.mp same with ⟨more, longer, rest⟩ | ⟨more, longer, rest⟩
  · exact .inr ⟨behind record (by simp [rest]), behindDirs more longer⟩
  · cases more with
    | nil =>
      rw [List.append_nil] at longer
      have here : Output.node record ∈ after := by
        rw [show after = _ from rest.symm]
        exact List.mem_cons_self
      exact .inr ⟨behind record here, behindDirs [] (by rw [List.append_nil, longer])⟩
    | cons o more =>
      cases rest
      -- the record stands in front of the directories, and it is no header
      have member : Output.node record ∈ before ++ first :: (givenDirs given).map Output.prefixDir := by simp [longer]
      rcases List.mem_append.mp member with early | late
      · exact .inl (given'.nodes record early)
      · rcases List.mem_cons.mp late with same | dir
        · exact absurd (by simp [same]) (node_ne_header number record)
        · obtain ⟨path, -, wrong⟩ := List.mem_map.mp dir
          cases wrong

theorem PrefixUpTo.once {next : Int} {st : DumpState sys} (upTo : PrefixUpTo given next st) : PrefixOnce given st := by
  obtain ⟨-, ⟨-, front⟩ | ⟨-, made⟩⟩ := upTo
  · exact ⟨.inl front, fun before record back split => .inl (front.nodes record (by simp [split]))⟩
  · exact ⟨.inr made, fun before record back split => made.nodes split⟩

/-- At every moment of a dump that is not incremental: between two rounds, behind the header of
the next one and when it is done. -/
theorem user_prefix_once (increasing : Increasing session server)
    (rooted : session.prefixPath = [] → ∃ log ∈ server.logs, log.revision = 0) (empty : BareStart server)
    {opts : DumpOptions} (whole : opts.incremental = false) (wet : opts.initialDryRun = false) :
    (∀ st : DumpState sys, Reached server session opts st → PrefixOnce opts.userPrefix st ∧
      (∀ log opened, openRevision server st = .ok (log, opened) → PrefixOnce opts.userPrefix opened) ∧
      ∀ st', dumpStep server session st = .ok st' → PrefixOnce opts.userPrefix st') ∧
    ∀ path ∈ opts.userPrefix, CleanPrefix path := by
  constructor
  · intro st reached
    obtain ⟨round, valid⟩ := reached.prefixRound increasing rooted empty whole wet
    exact ⟨round.upTo.once, fun log opened opens => (round.upTo.opened opens).once,
      fun st' ran => (PrefixRound.step increasing rooted empty valid round ran).1.upTo.once⟩
  · exact fun path _ => ⟨prefixDirs_parents path, cleanPrefix_head path, cleanPrefix_single path, cleanPrefix_length path⟩

/-- The paths of a stream in the order in which they are printed. -/
def streamPaths (out : List Output) : List CString :=
  out.filterMap fun
    | .prefixDir path => some path
    | .node record => some record.path
    | _ => none

def slashedPrefix : DumpOptions := { DumpOptions.create with userPrefix := some (cstr "/x//y/old_") }

theorem user_prefix_once_slashes : ∃ st st' : DumpState .plain, Reached trunkServer trunkSession slashedPrefix st ∧
    dumpStep trunkServer trunkSession st = .ok st' ∧
      streamPaths st'.out = [cstr "x", cstr "x/y", cstr "x/y/old_a"] ∧ PrefixOnce slashedPrefix.userPrefix st' := by
  have runs : (dumpSetup trunkServer trunkSession slashedPrefix : Result .plain (DumpState .plain)).toOption.any
      fun start => (dumpStep trunkServer trunkSession start).toOption.any fun st =>
        decide (st.globalRev ≤ st.opts.stop) && (dumpStep trunkServer trunkSession st).toOption.any fun st' =>
          decide (streamPaths st'.out = [cstr "x", cstr "x/y", cstr "x/y/old_a"]) := by
    decide
  obtain ⟨start, setup, runs⟩ := ok_of_any runs
  obtain ⟨st, first, runs⟩ := ok_of_any runs
  obtain ⟨goes, runs⟩ := Bool.and_eq_true_iff.mp runs
  obtain ⟨st', second, paths⟩ := ok_of_any runs
  have reached : Reached trunkServer trunkSession slashedPrefix st :=
    .round (.setup setup) first (of_decide_eq_true goes)
  have bare : BareStart trunkServer := ⟨by simp [trunkServer, plainLog], rfl⟩
  have once := @user_prefix_once .plain trunkServer trunkSession trunkServer_increasing (fun root => by cases root) bare
    slashedPrefix rfl rfl
  exact ⟨st, st', reached, second, of_decide_eq_true paths, (once.1 st reached).2.2 st' second⟩

end Rsvndump
