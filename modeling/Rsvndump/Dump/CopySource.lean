import Rsvndump.Dump.Selection

/-! The revision numbers of copy sources.

`delta_get_local_copyfrom_rev` answers with a place in the log list. This is the
number of the revision as long as the list and the stream have grown together.
-/

set_option autoImplicit false

namespace Rsvndump

open Library

variable {sys : Platform}

/-! ## The search -/

theorem copyfromLoop_congr (original : Int) (logs later : List LogRevision) {n : Nat} (le : n ≤ logs.length) :
    copyfromLoop original (logs ++ later) n = copyfromLoop original logs n := by
  induction n with
  | zero => rfl
  | succ n ih => rw [copyfromLoop, copyfromLoop, List.getElem?_append_left (by omega), ih (by omega)]

theorem revisions_upTo {original : Int} {logs : List LogRevision} (early : ∀ log ∈ logs, log.revision ≤ original) :
    (logs.map LogRevision.revision).filter (· ≤ original) = logs.map LogRevision.revision := by
  rw [List.filter_eq_self]
  intro r member
  obtain ⟨log, inside, rfl⟩ := List.mem_map.mp member
  exact decide_eq_true (early log inside)

/-- In a list of increasing revisions the search counts those up to the original one. -/
theorem copyfromLoop_count (original : Int) {logs : List LogRevision}
    (sorted : logs.Pairwise fun a b => a.revision < b.revision) :
    copyfromLoop original logs logs.length =
      ((logs.map LogRevision.revision).filter (· ≤ original)).length - 1 := by
  induction logs using List.reverseRecOn with
  | nil => rfl
  | append_singleton logs log ih =>
    obtain ⟨sorted, -, above⟩ := List.pairwise_append.mp sorted
    rw [List.length_append, List.length_singleton, copyfromLoop, List.getElem?_concat_length]
    by_cases reached : log.revision ≤ original
    · have all : ((logs ++ [log]).map LogRevision.revision).filter (· ≤ original) =
          (logs ++ [log]).map LogRevision.revision := by
        refine revisions_upTo fun log' inside => ?_
        rcases List.mem_append.mp inside with early | same
        · have := above log' early log (by simp)
          omega
        · rw [List.mem_singleton.mp same]
          exact reached
      simp only [if_pos reached, all, List.length_map, List.length_append, List.length_singleton]
      push_cast
      omega
    · simp only [if_neg reached]
      rw [copyfromLoop_congr original logs [log] (Nat.le_refl _), ih sorted, List.map_append, List.filter_append]
      simp [reached]

/-- Entries above the searched revision are passed over. -/
theorem copyfromLoop_append {original : Int} {logs later : List LogRevision}
    (above : ∀ log ∈ later, original < log.revision) {n : Nat} (low : logs.length ≤ n)
    (high : n ≤ logs.length + later.length) :
    copyfromLoop original (logs ++ later) n = copyfromLoop original logs logs.length := by
  obtain ⟨extra, rfl⟩ := Nat.exists_eq_add_of_le low
  induction extra with
  | zero => exact copyfromLoop_congr original logs later (Nat.le_refl _)
  | succ extra ih =>
    have inside : extra < later.length := by omega
    have found : (logs ++ later)[logs.length + extra]? = some (later.get ⟨extra, inside⟩) := by
      rw [List.getElem?_append_right (by omega)]
      simp
    have greater := above _ (List.get_mem later ⟨extra, inside⟩)
    rw [← Nat.add_assoc, copyfromLoop, found]
    simp only [if_neg (Int.not_le.mpr greater)]
    exact ih (by omega) (by omega)

/-! ## Progress of the loop -/

/-- The states in which a round of the loop begins. -/
inductive Reached (server : Server) (session : Session) (opts : DumpOptions) : DumpState sys → Prop
  | setup {st : DumpState sys} : dumpSetup server session opts = .ok st → Reached server session opts st
  | round {st st' : DumpState sys} : Reached server session opts st → dumpStep server session st = .ok st' →
      st'.globalRev ≤ st'.opts.stop → Reached server session opts st'

/-- The list holds entries that were there before, those dumped and, if fetched at once, those
still to be dumped; `first` is the number of the first revision dumped. -/
structure Progress (server : Server) (st : DumpState sys) (before : List LogRevision) (first : Int)
    (done rest : List LogRevision) : Prop where
  pending : Pending server st rest
  wet : st.opts.initialDryRun = false
  logs : st.logs = before ++ done ++ (if st.logsFetched then rest else [])
  printed : headers st.out = numberHeaders st.opts.keepRevnums first (done.map LogRevision.revision)
  number : st.localRev = nextNumber st.opts.keepRevnums first (done.map LogRevision.revision)

theorem nextNumber_snoc (keep : Bool) (next : Int) (revs : List Int) (revision : Int) :
    nextNumber keep next (revs ++ [revision]) = printedNumber keep (nextNumber keep next revs) revision + 1 := by
  induction revs generalizing next with
  | nil => rfl
  | cons r rest ih => rw [List.cons_append, nextNumber, nextNumber, ih]

theorem Progress.step {server : Server} {session : Session} {st st' : DumpState sys}
    {before done rest : List LogRevision} {first : Int} {log : LogRevision}
    (progress : Progress server st before first done (log :: rest))
    (ran : dumpStep server session st = .ok st') :
    Progress server st' before first (done ++ [log]) rest := by
  obtain ⟨pending, -, control, number, printed, fetched, logs⟩ := progress.pending.step ran
  have keep : st'.opts.keepRevnums = st.opts.keepRevnums :=
    control_field control DumpOptions.keepRevnums fun _ => rfl
  rw [progress.wet] at printed
  rw [roundNumber, progress.wet] at number
  simp only [Bool.false_eq_true, if_false] at printed number
  refine ⟨pending, control_field control DumpOptions.initialDryRun fun _ => rfl, ?_, ?_, ?_⟩
  · rw [logs, progress.logs, fetched]
    cases st.logsFetched <;> simp
  · rw [printed, progress.printed, keep, progress.number, List.map_append, numberHeaders_append]
    simp [numberHeaders]
  · rw [number, progress.number, keep, List.map_append, List.map_singleton, nextNumber_snoc]

/-- The list and the headers when the editor is set up. -/
theorem Progress.opens {server : Server} {st opened : DumpState sys} {before done rest : List LogRevision}
    {first : Int} {log log' : LogRevision} (progress : Progress server st before first done (log :: rest))
    (opens : openRevision server st = .ok (log', opened)) :
    log' = log ∧ opened.logs = before ++ done ++ log :: (if st.logsFetched then rest else []) ∧
      headers opened.out = numberHeaders st.opts.keepRevnums first ((done ++ [log]).map LogRevision.revision) := by
  obtain rfl := progress.pending.opens opens
  obtain ⟨mid, next, -, same, -, printed⟩ := openRevision_control opens
  obtain ⟨mid', next', -, whole, growing⟩ := progress.pending.next
  cases Except.ok.inj (next.symm.trans next')
  refine ⟨rfl, ?_, ?_⟩
  · rw [same.logs]
    cases mode : st.logsFetched with
    | true =>
      rw [(whole mode).1, progress.logs, mode]
      simp
    | false =>
      rw [(growing mode).1, progress.logs, mode]
      simp
  · rw [printed, progress.wet, progress.printed, progress.number, List.map_append, numberHeaders_append]
    simp [numberHeaders]

/-- The answer of the search while a revision is dumped. -/
theorem Progress.copyfromRev {server : Server} {st opened : DumpState sys}
    {before done rest : List LogRevision} {first : Int} {log log' : LogRevision}
    (progress : Progress server st before first done (log :: rest))
    (opens : openRevision server st = .ok (log', opened))
    (sorted : (before ++ done ++ log :: rest).Pairwise fun a b => a.revision < b.revision)
    {original : Int} (earlier : original < log.revision) (plain : opened.opts.keepRevnums = false) :
    deltaGetLocalCopyfromRev original opened.opts opened.logs =
      (((before ++ done).map LogRevision.revision).filter (· ≤ original)).length - 1 := by
  obtain ⟨-, logs, -⟩ := progress.opens opens
  obtain ⟨front, back, -⟩ := List.pairwise_append.mp sorted
  have above : ∀ log' ∈ log :: (if st.logsFetched then rest else []), original < log'.revision := by
    intro log' member
    rcases List.mem_cons.mp member with rfl | member
    · exact earlier
    · have inside : log' ∈ rest := by
        split at member
        · exact member
        · cases member
      have := (List.pairwise_cons.mp back).1 log' inside
      omega
  rw [deltaGetLocalCopyfromRev, plain, logs]
  simp only [Bool.false_eq_true, if_false]
  rw [copyfromLoop_append above (by simp; omega) (by simp; omega), copyfromLoop_count original front]

/-- With nothing pending, the log is searched backwards for the end revision. -/
theorem Pending.empty {server : Server} {st opened : DumpState sys} {log : LogRevision}
    (pending : Pending server st []) (single : st.logsFetched = false)
    (opens : openRevision server st = .ok (log, opened)) :
    st.opts.stop ≤ log.revision ∧ log.revision ≤ st.globalRev := by
  obtain ⟨mid, next, found, -⟩ := openRevision_control opens
  unfold nextLog at next
  rw [single] at next
  obtain ⟨log', fetch, returned⟩ := bind_eq_ok.mp next
  cases returned
  rw [TracedRepo.lift_eq_ok] at fetch
  have same : log' = log := by
    obtain ⟨-, found⟩ := logAt_eq_ok found
    simpa using found
  subst same
  rw [logFetchSingle, orError_eq_ok, svnRaGetLog_of_nonneg _ _ (pending.numbered single),
    ← pending.single single] at fetch
  split at fetch
  · cases fetch
  · have bounds := (List.mem_filter.mp (List.mem_reverse.mp (List.mem_of_head? fetch))).2
    simpa using bounds

section Modes

variable {server : Server} {session : Session} (increasing : Increasing session server)
  (changed : LastChanged server) {opts : DumpOptions} {created : Int}
  (last : server.createdRev opts.stop = some created)

include increasing changed last

/-- A dump that fetches its log entries one by one. -/
theorem Reached.full (wet : opts.initialDryRun = false) (mid : startMid opts = false) (valid : 0 ≤ opts.start)
    {st : DumpState sys}
    (reached : Reached server session opts st) :
    ∃ opts', adjustRange server session opts.formatted = .ok opts' ∧ opts'.stop = created ∧
      st.opts.keepRevnums = opts.keepRevnums ∧ ∃ done rest,
        Progress server st (initialLogs session) (if opts'.start = 0 then 0 else 1) done rest ∧
        done ++ rest =
          (server.logs.filter fun log => opts'.start ≤ log.revision ∧ log.revision ≤ created) ∧
        (rest = [] → st = setupFull server session opts') := by
  induction reached with
  | setup ran =>
    obtain ⟨opts', adjusted, -, whole⟩ := dumpSetup_ok ran
    have st_eq := whole mid
    obtain ⟨created', shape, subdirectory, root⟩ := adjustRange_ok increasing changed adjusted
    rw [formatted_stop, last] at created'
    have stop_eq : opts'.stop = created := (Option.some.inj created').symm
    rw [formatted_start] at subdirectory root
    have positive := adjustRange_positive increasing adjusted
    have logged := changed.logged _ _ last
    rw [← stop_eq] at logged
    have nonneg := adjustRange_nonneg increasing adjusted (by simpa using valid)
    have pending := @setupFull_pending sys _ _ increasing _ nonneg positive logged
    have fields := @setupFull_fields sys server session _ positive
    refine ⟨opts', adjusted, stop_eq, ?_, [], _, ⟨st_eq ▸ pending, ?_, ?_, ?_, ?_⟩, ?_, fun _ => st_eq⟩
    · rw [st_eq, fields, shape]
      simp
    · rw [st_eq, fields, shape]
      simp [wet]
    · rw [st_eq, fields]
      simp
    · rw [st_eq, fields]
      simp [numberHeaders]
    · rw [st_eq, fields]
      rfl
    · rw [stop_eq]
      rfl
  | round reached ran continues ih =>
    obtain ⟨opts', adjusted, stop_eq, keep, done, rest, progress, split, initial⟩ := ih
    cases rest with
    | nil =>
      obtain ⟨log, opened, opens, control, -, -, -, globalRev, -⟩ := dumpStep_control ran
      have single : ∀ opts', (setupFull server session opts' : DumpState sys).logsFetched = false := by
        intro opts'
        unfold setupFull
        rfl
      obtain ⟨reached_end, -⟩ := progress.pending.empty (initial rfl ▸ single opts') opens
      have stop := control_field control DumpOptions.stop fun _ => rfl
      simp only [DumpOptions.wet] at stop
      omega
    | cons log rest =>
      obtain ⟨-, go_on, control, -⟩ := progress.pending.step ran
      refine ⟨opts', adjusted, stop_eq, ?_, done ++ [log], rest, progress.step ran, by simpa using split, ?_⟩
      · rw [← keep]
        exact control_field control DumpOptions.keepRevnums fun _ => rfl
      · intro empty
        exact absurd empty (go_on.mp continues)

/-- A dump that starts in the middle: the first round is dry, the others go through the list. -/
theorem Reached.incremental (mid : startMid opts = true) {st : DumpState sys}
    (reached : Reached server session opts st) :
    (dumpSetup server session opts = .ok st ∧ st.opts.initialDryRun = true) ∨
      ∃ (i : Nat) (base : LogRevision) (done rest : List LogRevision),
        baseIndex session (logList server session created) opts.start = i ∧
        (logList server session created)[i]? = some base ∧ st.opts.keepRevnums = opts.keepRevnums ∧
        Progress server st ((logList server session created).take (i + 1))
          ((if opts.keepRevnums then base.revision else i) + 1) done rest ∧
        done ++ rest = (logList server session created).drop (i + 1) ∧ rest ≠ [] := by
  induction reached with
  | setup ran =>
    obtain ⟨i, base, atBase⟩ := dumpSetup_atBase increasing changed mid last ran
    exact .inl ⟨ran, atBase.dry⟩
  | @round st st' reached ran continues ih =>
    rcases ih with ⟨setup, -⟩ | ⟨i, base, done, rest, index, found, keep, progress, split, more⟩
    · obtain ⟨i, base, atBase⟩ := dumpSetup_atBase increasing changed mid last setup
      obtain ⟨pending, go_on, wet, keep, number, printed, logs, fetched⟩ := atBase.round ran
      refine .inr ⟨i, base, [], _, atBase.index, atBase.found, keep, ⟨pending, wet, ?_, ?_, number⟩, rfl, go_on.mp continues⟩
      · rw [logs, fetched, if_pos rfl]
        simp
      · rw [printed]
        rfl
    · cases rest with
      | nil => exact absurd rfl more
      | cons log rest =>
        obtain ⟨-, go_on, control, -⟩ := progress.pending.step ran
        refine .inr ⟨i, base, done ++ [log], rest, index, found, ?_, progress.step ran, by simpa using split,
          go_on.mp continues⟩
        rw [← keep]
        exact control_field control DumpOptions.keepRevnums fun _ => rfl

end Modes

/-! ## Latest revisions -/

/-- The greatest logged revision up to the original one. -/
def IsLatest (logged : List Int) (original g : Int) : Prop :=
  g ∈ logged ∧ g ≤ original ∧ ∀ r ∈ logged, r ≤ original → r ≤ g

theorem IsLatest.index {logged : List Int} (sorted : logged.Pairwise (· < ·)) {original g : Int}
    (latest : IsLatest logged original g) :
    ∃ k : Nat, (logged.filter (· ≤ original)).length = k + 1 ∧ logged[k]? = some g := by
  obtain ⟨member, le, greatest⟩ := latest
  induction logged with
  | nil => cases member
  | cons r rest ih =>
    obtain ⟨later, sorted⟩ := List.pairwise_cons.mp sorted
    rcases List.mem_cons.mp member with rfl | inside
    · have none_left : rest.filter (· ≤ original) = [] := by
        rw [List.filter_eq_nil_iff]
        intro r member reached
        have := later r member
        have := greatest r (List.mem_cons_of_mem _ member) (by simpa using reached)
        omega
      exact ⟨0, by simp [le, none_left], rfl⟩
    · obtain ⟨k, length, found⟩ := ih sorted inside fun r' member => greatest r' (List.mem_cons_of_mem _ member)
      have := later g inside
      refine ⟨k + 1, ?_, by simpa using found⟩
      rw [List.filter_cons_of_pos (by simp; omega), List.length_cons, length]

theorem exists_latest {logged : List Int} {original : Int} (some_before : ∃ r ∈ logged, r ≤ original) :
    ∃ g, IsLatest logged original g := by
  induction logged with
  | nil =>
    obtain ⟨r, member, -⟩ := some_before
    cases member
  | cons r rest ih =>
    by_cases more : ∃ r ∈ rest, r ≤ original
    · obtain ⟨g, member, le, greatest⟩ := ih more
      by_cases larger : r ≤ original ∧ g < r
      · refine ⟨r, List.mem_cons_self, larger.1, fun r' inside reached => ?_⟩
        rcases List.mem_cons.mp inside with rfl | inside
        · exact Int.le_refl _
        · have := greatest r' inside reached
          omega
      · refine ⟨g, List.mem_cons_of_mem _ member, le, fun r' inside reached => ?_⟩
        rcases List.mem_cons.mp inside with rfl | inside
        · omega
        · exact greatest r' inside reached
    · obtain ⟨r', member, le⟩ := some_before
      rcases List.mem_cons.mp member with rfl | inside
      · refine ⟨r', List.mem_cons_self, le, fun r inside reached => ?_⟩
        rcases List.mem_cons.mp inside with rfl | inside
        · exact Int.le_refl _
        · exact absurd ⟨r, inside, reached⟩ more
      · exact absurd ⟨r', inside, le⟩ more

/-- A revision is printed under one number only. -/
theorem number_unique {next r n : Int} {revs : List Int} {i : Nat} (sorted : revs.Pairwise (· < ·))
    (printed : (some r, n) ∈ numberHeaders false next revs) (place : revs[i]? = some r) : n = next + i := by
  obtain ⟨j, rfl, found⟩ := mem_numberHeaders_plain.mp printed
  have distinct : revs.Nodup := sorted.imp fun less => Int.ne_of_lt less
  have bound := (List.getElem?_eq_some_iff.mp place).1
  rw [(List.getElem?_inj bound distinct).mp (place.trans found.symm)]

/-! ## Copy sources -/

/-- The headers of the full dump that ends before an incremental one. -/
def precedingHeaders (server : Server) (session : Session) (opts : DumpOptions) (created : Int) :
    List (Option Int × Int) :=
  if startMid opts then
    numberHeaders opts.keepRevnums (initialLogs session).length
      ((loggedUpTo server created).filter (· < opts.start))
  else []

/-- The number given for a copy source is that of the latest revision up to the original one, or
one that `delta_check_copy` rejects when that revision was not printed. -/
def NamesSource (keep : Bool) (logged : List Int) (emitted : List (Option Int × Int)) (original value : Int) :
    Prop :=
  if keep then value = original
  else
    (∀ g, IsLatest logged original g →
      (∃ n, (some g, n) ∈ emitted ∧ value = n) ∨ ((∀ n, (some g, n) ∉ emitted) ∧ value ≤ 0)) ∧
    ((∀ r ∈ logged, original < r) → value ≤ 0)

/-- List and stream have grown together. -/
def CountsAlike (session : Session) (opts : DumpOptions) (logged : List Int) (original : Int) : Prop :=
  opts.keepRevnums = true ∨
    if startMid opts then
      session.prefixPath = [] ∨ (∃ r ∈ logged, r < opts.start) ∨
        (∃ r ∈ logged, ∃ r' ∈ logged, r < r' ∧ r' ≤ original) ∨ ∀ r ∈ logged, original < r
    else session.prefixPath ≠ [] ∨ opts.start = 0 ∨ ∀ r ∈ logged, opts.start ≤ r → original < r

theorem IsLatest.unique {logged : List Int} {original g g' : Int} (latest : IsLatest logged original g)
    (latest' : IsLatest logged original g') : g' = g := by
  have := latest.2.2 g' latest'.1 latest'.2.1
  have := latest'.2.2 g latest.1 latest.2.1
  omega

/-- Entries fetched one by one: the places in the list are the numbers if both start alike. -/
theorem names_growing {logged done : List Int} {dummies : Nat} {first start c original value : Int}
    (few : dummies ≤ 1) (sorted : (done ++ [c]).Pairwise (· < ·))
    (members : ∀ r, r ∈ done ↔ r ∈ logged ∧ start ≤ r ∧ r < c) (earlier : original < c)
    (answer : value = dummies + ((done.filter (· ≤ original)).length : Int) - 1) :
    NamesSource false logged (numberHeaders false first (done ++ [c])) original value ↔
      first = dummies ∨ ∀ r ∈ logged, start ≤ r → original < r := by
  have sorted_done := (List.pairwise_append.mp sorted).1
  have inside : ∀ {g n : Int}, (some g, n) ∈ numberHeaders false first (done ++ [c]) → g ∈ done ∨ g = c := by
    intro g n printed
    obtain ⟨i, -, found⟩ := mem_numberHeaders_plain.mp printed
    simpa using List.mem_of_getElem? found
  -- the search stops at the latest dumped revision up to the original one, or runs to the front
  by_cases dumped : ∃ r ∈ done, r ≤ original
  · obtain ⟨g, latest⟩ := exists_latest dumped
    obtain ⟨k, length, place⟩ := latest.index sorted_done
    have logged_g := (members g).mp latest.1
    have place' : (done ++ [c])[k]? = some g := by
      rw [List.getElem?_append_left (List.getElem?_eq_some_iff.mp place).1, place]
    have printed : (some g, first + k) ∈ numberHeaders false first (done ++ [c]) :=
      mem_numberHeaders_plain.mpr ⟨k, rfl, place'⟩
    have latest' : IsLatest logged original g := by
      refine ⟨logged_g.1, latest.2.1, fun r member le => ?_⟩
      by_cases after : start ≤ r
      · exact latest.2.2 r ((members r).mpr ⟨member, after, by omega⟩) le
      · omega
    have value_eq : value = dummies + k := by
      rw [answer, length]
      push_cast
      omega
    constructor
    · rintro ⟨names, -⟩
      rcases names g latest' with ⟨n, member, same⟩ | ⟨missing, -⟩
      · have := number_unique sorted member place'
        exact .inl (by omega)
      · exact absurd printed (missing _)
    · rintro (alike | nothing)
      · refine ⟨fun g' other => ?_, fun none_before => ?_⟩
        · rw [latest'.unique other]
          exact .inl ⟨_, printed, by omega⟩
        · have := none_before g logged_g.1
          have := latest.2.1
          omega
      · have := nothing g logged_g.1 logged_g.2.1
        have := latest.2.1
        omega
  · have zero : done.filter (· ≤ original) = [] := by
      rw [List.filter_eq_nil_iff]
      intro r member le
      exact dumped ⟨r, member, by simpa using le⟩
    have rejected : value ≤ 0 := by
      rw [answer, zero]
      simp
      omega
    refine iff_of_true ⟨fun g latest => .inr ⟨fun n printed => ?_, rejected⟩, fun _ => rejected⟩ (.inr ?_)
    · rcases inside printed with member | same
      · exact dumped ⟨g, member, latest.2.1⟩
      · have := latest.2.1
        omega
    · intro r member after
      by_contra reached
      exact dumped ⟨r, (members r).mpr ⟨member, after, by omega⟩, by omega⟩

/-- The dummy entry, if any, and the logged revisions, of which those before `start` have been
numbered by a full dump; the search goes over the entries `before` the one being dumped. -/
structure Fetched (dummies upTo before rest : List Int) (i : Nat) (start c : Int) : Prop where
  few : dummies.length ≤ 1
  sorted : (dummies ++ upTo).Pairwise (· < ·)
  whole : dummies ++ upTo = before ++ c :: rest
  long : i + 1 ≤ before.length
  small : ∀ r ∈ dummies, r < start
  index : (i : Int) =
    if ((dummies.length + (upTo.filter (· < start)).length : Nat) : Int) > 1 ∨ dummies = [] then
      ((dummies.length + (upTo.filter (· < start)).length : Nat) : Int) - 1
    else (dummies.length + (upTo.filter (· < start)).length : Nat)

section Fetched

variable {dummies upTo before rest : List Int} {i : Nat} {start c : Int}
  (list : Fetched dummies upTo before rest i start c)

include list

theorem Fetched.sorted_before : before.Pairwise (· < ·) := by
  have sorted := list.sorted
  rw [list.whole] at sorted
  exact (List.pairwise_append.mp sorted).1

theorem Fetched.dummy_lt {r g : Int} (dummy : r ∈ dummies) (member : g ∈ upTo) : r < g :=
  (List.pairwise_append.mp list.sorted).2.2 r dummy g member

theorem Fetched.mem_before {r : Int} (member : r ∈ dummies ++ upTo) (earlier : r < c) : r ∈ before := by
  have sorted := list.sorted
  rw [list.whole] at member sorted
  rcases List.mem_append.mp member with inside | later
  · exact inside
  · rcases List.mem_cons.mp later with rfl | later
    · omega
    · have := (List.pairwise_cons.mp (List.pairwise_append.mp sorted).2.1).1 r later
      omega

theorem Fetched.place {k : Nat} {g : Int} (found : before[k]? = some g) : (dummies ++ upTo)[k]? = some g := by
  rw [list.whole, List.getElem?_append_left (List.getElem?_eq_some_iff.mp found).1, found]

/-- The place of a revision from `start` on is not among the prepared entries. -/
theorem Fetched.prepared_iff {k : Nat} {g : Int} (found : before[k]? = some g) :
    g < start ↔ k < dummies.length + (upTo.filter (· < start)).length := by
  have place := list.place found
  rw [sorted_split (List.pairwise_append.mp list.sorted).2.1 start, ← List.append_assoc] at place
  constructor
  · intro less
    by_contra large
    rw [List.getElem?_append_right (by rw [List.length_append]; omega)] at place
    have := (List.mem_filter.mp (List.mem_of_getElem? place)).2
    simp only [decide_eq_true_eq] at this
    omega
  · intro small
    rw [List.getElem?_append_left (by rw [List.length_append]; omega)] at place
    rcases List.mem_append.mp (List.mem_of_getElem? place) with dummy | early
    · exact list.small g dummy
    · simpa using (List.mem_filter.mp early).2

/-- Without a logged revision up to the original one, the dummy entry is all that is found. -/
theorem Fetched.none_found {logged : List Int} {original : Int} (members : ∀ r ≤ original, r ∈ logged ↔ r ∈ upTo)
    (none_before : ∀ r ∈ logged, original < r) : (before.filter (· ≤ original)).length ≤ 1 := by
  have part : before.Sublist (dummies ++ upTo) := by
    rw [list.whole]
    exact List.sublist_append_left _ _
  have none_left : upTo.filter (· ≤ original) = [] := by
    rw [List.filter_eq_nil_iff]
    intro r member le
    have le : r ≤ original := by simpa using le
    have := none_before r ((members r le).mpr member)
    omega
  have shorter := (part.filter (· ≤ original)).length_le
  rw [List.filter_append, none_left, List.append_nil] at shorter
  exact (shorter.trans (List.length_filter_le _ _)).trans list.few

theorem Fetched.latest {logged : List Int} {original g : Int} (earlier : original < c)
    (members : ∀ r ≤ original, r ∈ logged ↔ r ∈ upTo) (latest : IsLatest logged original g) : IsLatest before original g := by
  have in_upTo : g ∈ upTo := (members g latest.2.1).mp latest.1
  have := latest.2.1
  refine ⟨list.mem_before (List.mem_append_right _ in_upTo) (by omega), latest.2.1, fun r member reached => ?_⟩
  have inside : r ∈ dummies ++ upTo := by
    rw [list.whole]
    exact List.mem_append_left _ member
  rcases List.mem_append.mp inside with dummy | member
  · exact Int.le_of_lt (list.dummy_lt dummy in_upTo)
  · exact latest.2.2 r ((members r reached).mpr member) reached

section Place

variable {k : Nat} {g : Int} (place : before[k]? = some g)

include place

omit list in
/-- An entry behind the base revision has been dumped in this run, under the number of its place. -/
theorem mem_headers_dumped (after : i + 1 ≤ k) : (some g, (k : Int)) ∈ numberHeaders false (i + 1) (before.drop (i + 1) ++ [c]) := by
  refine mem_numberHeaders_plain.mpr ⟨k - (i + 1), by omega, ?_⟩
  have bound := (List.getElem?_eq_some_iff.mp place).1
  rw [List.getElem?_append_left (by rw [List.length_drop]; omega), List.getElem?_drop, ← place]
  congr 1
  omega

/-- With a dummy entry there is a logged revision before it, too. -/
theorem Fetched.dumped_behind (after : i + 1 ≤ k) (some_dummy : dummies ≠ []) :
    (∃ r ∈ upTo, r < start) ∨ ∃ r ∈ upTo, r < g := by
  by_cases early : upTo.filter (· < start) = []
  · -- the base is the first logged revision
    right
    have index := list.index
    have few := list.few
    have one : dummies.length = 1 := by
      have := List.length_pos_iff.mpr some_dummy
      omega
    rw [early, one, if_neg (by simp [some_dummy])] at index
    simp only [List.length_nil] at index
    have bound := (List.getElem?_eq_some_iff.mp place).1
    obtain ⟨r, found_r⟩ : ∃ r, before[1]? = some r := ⟨_, List.getElem?_eq_getElem (by omega)⟩
    have place_r := list.place found_r
    rw [List.getElem?_append_right (by omega)] at place_r
    have less := List.pairwise_iff_getElem.mp list.sorted_before 1 k (by omega) bound (by omega)
    rw [(List.getElem?_eq_some_iff.mp found_r).2, (List.getElem?_eq_some_iff.mp place).2] at less
    exact ⟨r, List.mem_of_getElem? place_r, less⟩
  · obtain ⟨r, member⟩ := List.exists_mem_of_ne_nil _ early
    obtain ⟨member, less⟩ := List.mem_filter.mp member
    exact .inl ⟨r, member, by simpa using less⟩

/-- An entry before `start` has been numbered by the full dump before. -/
theorem Fetched.numbered (less : g < start) (in_upTo : g ∈ upTo) :
    (some g, (k : Int)) ∈ numberHeaders false dummies.length (upTo.filter (· < start)) := by
  have prepared := (list.prepared_iff place).mp less
  have place' := list.place place
  have past : dummies.length ≤ k := by
    by_contra inside
    rw [List.getElem?_append_left (by omega)] at place'
    have := list.dummy_lt (List.mem_of_getElem? place') in_upTo
    omega
  rw [List.getElem?_append_right past, sorted_split (List.pairwise_append.mp list.sorted).2.1 start,
    List.getElem?_append_left (by omega)] at place'
  exact mem_numberHeaders_plain.mpr ⟨k - dummies.length, by omega, place'⟩

/-- What has neither been dumped nor numbered before is the base, behind the dummy entry. -/
theorem Fetched.base (last : k ≤ i) (late : start ≤ g) :
    dummies.length = 1 ∧ upTo.filter (· < start) = [] ∧ i = 1 ∧ k = 1 := by
  have unprepared := (list.prepared_iff place).not.mp (by omega)
  have index := list.index
  have few := list.few
  split at index
  · omega
  · next single =>
    have root : dummies ≠ [] := fun empty => single (.inr empty)
    have := List.length_pos_iff.mpr root
    have := not_or.mp single
    have empty : (upTo.filter (· < start)).length = 0 := by omega
    exact ⟨by omega, List.length_eq_zero_iff.mp empty, by omega, by omega⟩

end Place

theorem Fetched.base_unprinted {g : Int} (place : before[1]? = some g) (base : i = 1) (earlier : g < c) (n : Int) :
    (some g, n) ∉ numberHeaders false (i + 1) (before.drop (i + 1) ++ [c]) := by
  intro printed
  subst base
  obtain ⟨j, -, found⟩ := mem_numberHeaders_plain.mp printed
  rcases List.mem_append.mp (List.mem_of_getElem? found) with later | same
  · obtain ⟨j, later⟩ := List.mem_iff_getElem?.mp later
    rw [List.getElem?_drop] at later
    have bound := (List.getElem?_eq_some_iff.mp later).1
    have bound' := (List.getElem?_eq_some_iff.mp place).1
    have := List.pairwise_iff_getElem.mp list.sorted_before 1 (1 + 1 + j) bound' bound (by omega)
    rw [(List.getElem?_eq_some_iff.mp later).2, (List.getElem?_eq_some_iff.mp place).2] at this
    omega
  · have := List.mem_singleton.mp same
    omega

/-- Behind the dummy entry stands the first logged revision. -/
theorem Fetched.first_least {g : Int} (place : before[1]? = some g) (one : dummies.length = 1) : ∀ r ∈ upTo, g ≤ r := by
  intro r member
  have place' := list.place place
  rw [List.getElem?_append_right (by omega), one] at place'
  cases upTo with
  | nil => cases member
  | cons x more =>
    cases place'
    rcases List.mem_cons.mp member with rfl | later
    · exact Int.le_refl _
    · exact Int.le_of_lt ((List.pairwise_cons.mp (List.pairwise_append.mp list.sorted).2.1).1 r later)

/-- A list fetched at once: the place is the number, except for the base revision when no
earlier revision has been printed. -/
theorem Fetched.names_iff {logged : List Int} {original value : Int} (range : start ≤ original)
    (earlier : original < c) (members : ∀ r ≤ original, r ∈ logged ↔ r ∈ upTo)
    (answer : value = ((before.filter (· ≤ original)).length : Int) - 1) :
    NamesSource false logged
        (numberHeaders false dummies.length (upTo.filter (· < start)) ++
          numberHeaders false (i + 1) (before.drop (i + 1) ++ [c])) original value ↔
      dummies = [] ∨ (∃ r ∈ logged, r < start) ∨ (∃ r ∈ logged, ∃ r' ∈ logged, r < r' ∧ r' ≤ original) ∨
        ∀ r ∈ logged, original < r := by
  by_cases some_before : ∃ r ∈ logged, r ≤ original
  swap
  · -- only the dummy entry is found, which is rejected
    have none_before : ∀ r ∈ logged, original < r := by
      intro r member
      by_contra le
      exact some_before ⟨r, member, by omega⟩
    have found := list.none_found members none_before
    refine iff_of_true ⟨fun g latest => absurd ⟨g, latest.1, latest.2.1⟩ some_before, fun _ => ?_⟩
      (.inr (.inr (.inr none_before)))
    omega
  obtain ⟨g, latest⟩ := exists_latest some_before
  have le := latest.2.1
  have in_upTo : g ∈ upTo := (members g le).mp latest.1
  obtain ⟨k, length, place⟩ := (list.latest earlier members latest).index list.sorted_before
  have value_eq : value = k := by
    rw [answer, length]
    push_cast
    omega
  have found : ∀ {emitted : List (Option Int × Int)}, (some g, (k : Int)) ∈ emitted →
      NamesSource false logged emitted original value := by
    intro emitted printed
    refine ⟨fun g' other => ?_, fun nothing => ?_⟩
    · rw [latest.unique other]
      exact .inl ⟨k, printed, value_eq⟩
    · have := nothing g latest.1
      omega
  by_cases after : i + 1 ≤ k
  · -- dumped in this run
    refine iff_of_true (found (List.mem_append_right _ (mem_headers_dumped place after))) ?_
    by_cases root : dummies = []
    · exact .inl root
    · rcases list.dumped_behind place after root with ⟨r, member, less⟩ | ⟨r, member, less⟩
      · exact .inr (.inl ⟨r, (members r (by omega)).mpr member, less⟩)
      · exact .inr (.inr (.inl ⟨r, (members r (by omega)).mpr member, g, latest.1, less, le⟩))
  by_cases less : g < start
  · -- numbered by the full dump before
    exact iff_of_true (found (List.mem_append_left _ (list.numbered place less in_upTo))) (.inr (.inl ⟨g, latest.1, less⟩))
  · -- the base is in the range and has only been fetched
    obtain ⟨one, early, base, rfl⟩ := list.base place (by omega) (by omega)
    have first := list.first_least place one
    refine iff_of_false ?_ ?_
    · rintro ⟨names, -⟩
      rcases names g latest with ⟨n, printed, -⟩ | ⟨-, rejected⟩
      · rw [early] at printed
        exact list.base_unprinted place base (by omega) n printed
      · omega
    · rintro (empty | ⟨r, member, small⟩ | ⟨r, member, r', member', less, reached⟩ | nothing)
      · rw [empty] at one
        cases one
      · have := first r ((members r (by omega)).mp member)
        omega
      · have := first r ((members r (by omega)).mp member)
        have := latest.2.2 r' member' reached
        omega
      · have := nothing g latest.1
        omega

end Fetched

/-! ## Runs -/

theorem initialLogs_empty {session : Session} :
    (initialLogs session).map LogRevision.revision = [] ↔ session.prefixPath = [] := by
  rw [initialLogs_revisions]
  split <;> simp_all

/-- The list of a dump that starts in the middle, at an entry behind its base. -/
theorem fetched_logList {server : Server} {session : Session} (increasing : Increasing session server)
    (changed : LastChanged server) {opts : DumpOptions} {created : Int} (last : server.createdRev opts.stop = some created)
    (started : 1 ≤ opts.start) {i : Nat} {log : LogRevision} {done rest : List LogRevision}
    (whole : (logList server session created).take (i + 1) ++ done ++ log :: rest = logList server session created)
    (bound : i < (logList server session created).length)
    (index : baseIndex session (logList server session created) opts.start = i) :
    Fetched ((initialLogs session).map LogRevision.revision) (loggedUpTo server created)
      (((logList server session created).take (i + 1) ++ done).map LogRevision.revision)
      (rest.map LogRevision.revision) i opts.start log.revision ∧ log.revision ≤ created := by
  have sorted := increasing.logList (created_nonneg increasing changed last)
  have revisions := logList_revisions increasing changed last
  have prepared : preparedCount (logList server session created) opts.start =
      ((initialLogs session).map LogRevision.revision).length +
        ((loggedUpTo server created).filter (· < opts.start)).length := by
    rw [List.length_map]
    exact preparedCount_eq increasing changed last started
  refine ⟨⟨?_, ?_, ?_, ?_, fun r member => ?_, ?_⟩, ?_⟩
  · rw [initialLogs_revisions]
    split <;> simp
  · rw [← revisions]
    exact List.pairwise_map.mpr sorted
  · rw [← revisions, ← List.map_cons, ← List.map_append, whole]
  · rw [List.length_map, List.length_append, List.length_take]
    omega
  · rw [mem_initialLogs_revisions member]
    omega
  · rw [← index, baseIndex, prepared]
    simp only [initialLogs_empty, List.length_eq_zero_iff]
  · have member : log ∈ logList server session created := by
      rw [← whole]
      simp
    rcases List.mem_append.mp member with dummy | logged
    · rw [mem_initialLogs_revisions (List.mem_map_of_mem dummy)]
      exact created_nonneg increasing changed last
    · rw [svnRaGetLog_zero increasing (created_nonneg increasing changed last)] at logged
      simpa using (List.mem_filter.mp logged).2

theorem openRevision_opts {server : Server} {st opened : DumpState sys} {log : LogRevision}
    (opens : openRevision server st = .ok (log, opened)) : opened.opts.control = st.opts.control := by
  obtain ⟨mid, next, -, same, -⟩ := openRevision_control opens
  rw [same.opts, (nextLog_control next).1]

/-- The entries dumped before one of them are those of the range below it. -/
theorem mem_done_iff {logs done rest : List LogRevision} {log : LogRevision} {start stop : Int}
    (sorted : logs.Pairwise fun a b => a.revision < b.revision)
    (split : done ++ log :: rest = logs.filter fun log => start ≤ log.revision ∧ log.revision ≤ stop) (r : Int) :
    r ∈ done.map LogRevision.revision ↔ r ∈ logs.map LogRevision.revision ∧ start ≤ r ∧ r < log.revision := by
  have sorted' : (done ++ log :: rest).Pairwise fun a b => a.revision < b.revision := by
    rw [split]
    exact sorted.sublist List.filter_sublist
  obtain ⟨-, later, above⟩ := List.pairwise_append.mp sorted'
  have bounds : ∀ log' ∈ done ++ log :: rest, log' ∈ logs ∧ start ≤ log'.revision ∧ log'.revision ≤ stop := by
    intro log' member
    rw [split] at member
    simpa using member
  constructor
  · intro member
    obtain ⟨log', inside, rfl⟩ := List.mem_map.mp member
    obtain ⟨logged, low, -⟩ := bounds log' (List.mem_append_left _ inside)
    exact ⟨List.mem_map_of_mem logged, low, above log' inside log List.mem_cons_self⟩
  · rintro ⟨member, low, less⟩
    obtain ⟨log', inside, rfl⟩ := List.mem_map.mp member
    have upper := (bounds log (by simp)).2.2
    have listed : log' ∈ done ++ log :: rest := by
      rw [split]
      exact List.mem_filter.mpr ⟨inside, by simp; omega⟩
    rcases List.mem_append.mp listed with early | late
    · exact List.mem_map_of_mem early
    · rcases List.mem_cons.mp late with rfl | late
      · omega
      · have := (List.pairwise_cons.mp later).1 log' late
        omega

section Runs

variable {server : Server} {session : Session} (increasing : Increasing session server)
  (changed : LastChanged server) {opts : DumpOptions} {created : Int}
  (last : server.createdRev opts.stop = some created) {st opened : DumpState sys} {log : LogRevision}
  (reached : Reached server session opts st) (opens : openRevision server st = .ok (log, opened))
  {original : Int} (range : opts.start ≤ original) (earlier : original < log.revision)

include increasing changed last reached opens range earlier

theorem names_full (wet : opts.initialDryRun = false) (mid : startMid opts = false) (valid : 0 ≤ opts.start)
    (plain : opts.keepRevnums = false) :
    NamesSource false (server.logs.map LogRevision.revision) (headers opened.out) original
        (deltaGetLocalCopyfromRev original opened.opts opened.logs) ↔
      session.prefixPath ≠ [] ∨ opts.start = 0 ∨
        ∀ r ∈ server.logs.map LogRevision.revision, opts.start ≤ r → original < r := by
  obtain ⟨opts', adjusted, stop_eq, keep, done, rest, progress, split, initial⟩ :=
    reached.full increasing changed last wet mid valid
  obtain ⟨-, -, subdirectory, root⟩ := adjustRange_ok increasing changed adjusted
  rw [formatted_start] at subdirectory root
  have positive : session.prefixPath ≠ [] → opts'.start ≠ 0 := by
    intro sub
    by_cases zero : opts.start = 0
    · have := (subdirectory ⟨zero, List.length_pos_iff.mpr sub⟩).1
      omega
    · rw [root (fun both => zero both.1)]
      exact zero
  cases rest with
  | nil =>
    -- an empty range: the revision dumped is not above `start`
    have st_eq := initial rfl
    have fields := @setupFull_fields sys server session opts' fun long => positive (List.length_pos_iff.mp long)
    have empty : done = [] := by
      have logs := progress.logs
      rw [st_eq, fields] at logs
      simpa using logs
    obtain ⟨-, le⟩ := progress.pending.empty (by rw [st_eq, fields]) opens
    rw [st_eq, fields] at le
    by_cases sub : opts.start = 0 ∧ session.prefixPath.length > 0
    · obtain ⟨-, upper, ⟨first, member, same⟩, -⟩ := subdirectory sub
      have listed : first ∈ done ++ [] := by
        rw [split]
        exact List.mem_filter.mpr ⟨member, by simp; omega⟩
      rw [empty] at listed
      cases listed
    · have := root sub
      simp only at le
      omega
  | cons log' rest =>
    obtain ⟨rfl, -, printed⟩ := progress.opens opens
    have sorted : (initialLogs session ++ done ++ log :: rest).Pairwise fun a b => a.revision < b.revision := by
      rw [List.append_assoc, split]
      exact increasing.1.sublist (List.Sublist.append_left List.filter_sublist _)
    have plain' : opened.opts.keepRevnums = false := by
      rw [control_field (openRevision_opts opens) DumpOptions.keepRevnums fun _ => rfl, keep, plain]
    have answer := progress.copyfromRev opens sorted earlier plain'
    have dummies : ((initialLogs session).map LogRevision.revision).filter (· ≤ original) =
        (initialLogs session).map LogRevision.revision := by
      rw [initialLogs_revisions]
      split
      · rfl
      · simp
        omega
    rw [List.map_append, List.filter_append, dummies, List.length_append, List.length_map] at answer
    rw [keep, plain, List.map_append, List.map_singleton] at printed
    have sorted_done : (done.map LogRevision.revision ++ [log.revision]).Pairwise (· < ·) := by
      have : (done ++ [log]).Pairwise fun a b => a.revision < b.revision := by
        refine sorted.sublist ?_
        rw [List.append_assoc]
        exact (List.Sublist.append_left (by simp) _).trans (List.sublist_append_right _ _)
      simpa using List.pairwise_map.mpr this
    rw [printed, names_growing (initialLogs_length_le session) sorted_done (mem_done_iff increasing.logs split) earlier
      (answer.trans (by push_cast; omega))]
    by_cases sub : session.prefixPath = []
    · have none : (initialLogs session).length = 0 := by simp [initialLogs, sub]
      have same : opts'.start = opts.start := root fun both => by simp [sub] at both
      rw [none, same]
      simp only [sub, ne_eq, not_true_eq_false, false_or]
      apply or_congr_left
      split <;> simp_all
    · have one : (initialLogs session).length = 1 := by simp [initialLogs, List.length_pos_iff.mpr sub]
      rw [one, if_neg (positive sub)]
      simp [sub]

theorem names_incremental (mid : startMid opts = true) (valid : 0 ≤ opts.start) (dumped : opened.opts.initialDryRun = false)
    (plain : opts.keepRevnums = false) :
    NamesSource false (server.logs.map LogRevision.revision)
        (precedingHeaders server session opts created ++ headers opened.out) original
        (deltaGetLocalCopyfromRev original opened.opts opened.logs) ↔
      session.prefixPath = [] ∨ (∃ r ∈ server.logs.map LogRevision.revision, r < opts.start) ∨
        (∃ r ∈ server.logs.map LogRevision.revision, ∃ r' ∈ server.logs.map LogRevision.revision,
          r < r' ∧ r' ≤ original) ∨
        ∀ r ∈ server.logs.map LogRevision.revision, original < r := by
  have started : 1 ≤ opts.start := by
    have : opts.start ≠ 0 := by
      intro zero
      simp [startMid, zero] at mid
    omega
  rcases reached.incremental increasing changed last mid with
    ⟨-, dry⟩ | ⟨i, base, done, rest, index, found, keep, progress, split, more⟩
  · have := control_field (openRevision_opts opens) DumpOptions.initialDryRun fun _ => rfl
    rw [dumped, dry] at this
    cases this
  · cases rest with
    | nil => exact absurd rfl more
    | cons log' rest =>
      obtain ⟨rfl, -, printed⟩ := progress.opens opens
      have sorted := increasing.logList (created_nonneg increasing changed last)
      have whole : (logList server session created).take (i + 1) ++ done ++ log :: rest =
          logList server session created := by
        rw [List.append_assoc, split, List.take_append_drop]
      have plain' : opened.opts.keepRevnums = false := by
        rw [control_field (openRevision_opts opens) DumpOptions.keepRevnums fun _ => rfl, keep, plain]
      have answer := progress.copyfromRev opens (whole.symm ▸ sorted) earlier plain'
      have bound := (List.getElem?_eq_some_iff.mp found).1
      obtain ⟨list, le_created⟩ := fetched_logList increasing changed last started whole bound index
      have members : ∀ r ≤ original, r ∈ server.logs.map LogRevision.revision ↔ r ∈ loggedUpTo server created := by
        intro r le
        rw [loggedUpTo, List.mem_filter]
        simp only [decide_eq_true_eq]
        exact ⟨fun member => ⟨member, by omega⟩, fun both => both.1⟩
      have iff := list.names_iff range earlier members answer
      rw [keep, plain, List.map_append, List.map_singleton] at printed
      have dropped : (((logList server session created).take (i + 1) ++ done).map LogRevision.revision).drop (i + 1) =
          done.map LogRevision.revision := by
        rw [List.map_append, List.drop_append_of_le_length (by simp; omega), List.drop_of_length_le (by simp)]
        rfl
      rw [dropped, List.length_map, initialLogs_empty] at iff
      rw [precedingHeaders, mid, plain, printed]
      exact iff

end Runs

/-- The number given for a copy source names the right revision exactly if list and stream have
grown together. -/
theorem copyfrom_rev_iff {server : Server} {session : Session} (increasing : Increasing session server)
    (changed : LastChanged server) {opts : DumpOptions} (wet : opts.initialDryRun = false)
    (valid : 0 ≤ opts.start) {created : Int} (last : server.createdRev opts.stop = some created)
    {st opened : DumpState sys} {log : LogRevision} (reached : Reached server session opts st)
    (opens : openRevision server st = .ok (log, opened)) (dumped : opened.opts.initialDryRun = false)
    {original : Int} (range : opts.start ≤ original) (earlier : original < log.revision) :
    NamesSource opts.keepRevnums (server.logs.map LogRevision.revision)
        (precedingHeaders server session opts created ++ headers opened.out) original
        (deltaGetLocalCopyfromRev original opened.opts opened.logs) ↔
      CountsAlike session opts (server.logs.map LogRevision.revision) original := by
  have keep : opened.opts.keepRevnums = opts.keepRevnums := by
    rw [control_field (openRevision_opts opens) DumpOptions.keepRevnums fun _ => rfl]
    cases mid : startMid opts with
    | false =>
      obtain ⟨-, -, -, keep, -⟩ := reached.full increasing changed last wet mid valid
      exact keep
    | true =>
      rcases reached.incremental increasing changed last mid with ⟨-, dry⟩ | ⟨-, -, -, -, -, -, keep, -⟩
      · have := control_field (openRevision_opts opens) DumpOptions.initialDryRun fun _ => rfl
        rw [dumped, dry] at this
        cases this
      · exact keep
  cases plain : opts.keepRevnums with
  | true =>
    rw [plain] at keep
    exact iff_of_true (by simp [NamesSource, deltaGetLocalCopyfromRev, keep]) (.inl plain)
  | false =>
    cases mid : startMid opts with
    | false =>
      have iff := names_full increasing changed last reached opens range earlier wet mid valid plain
      rw [precedingHeaders, CountsAlike, mid, plain]
      simpa using iff
    | true =>
      have iff := names_incremental increasing changed last reached opens range earlier mid valid dumped plain
      rw [CountsAlike, mid, plain]
      simpa using iff

/-! A repository with a new file in each of the first three revisions; revision 4 copies the
last of them. It is dumped from revision 2 on. -/

def rootSession : Session := ⟨[]⟩

def addFiles (names : List CString) : Drive :=
  names.foldr (fun name rest => .addFile name [] (some fun _ => [1]) rest) .done

def rootServer : Server where
  uuid := []
  createdRev rev := if rev = -1 ∨ 4 ≤ rev then some 4 else if 0 ≤ rev then some rev else none
  checkPath _ := .dir
  logs :=
    [plainLog 0 [], plainLog 1 [⟨cstr "a", .add, none⟩], plainLog 2 [⟨cstr "b", .add, none⟩],
      plainLog 3 [⟨cstr "c", .add, none⟩], plainLog 4 [⟨cstr "d", .add, some (cstr "c", 3)⟩]]
  diff _ dest empty := ⟨[],
    if dest = 2 ∧ empty then addFiles [cstr "a", cstr "b"]
    else if dest = 3 then addFiles [cstr "c"]
    else if dest = 4 then addFiles [cstr "d"]
    else .done⟩
  listing _ _ := .missing

theorem rootServer_increasing : Increasing rootSession rootServer := by
  refine ⟨?_, ?_⟩
  · rw [show initialLogs rootSession = [] from rfl]
    simp [rootServer, plainLog]
  · simp [rootServer, plainLog]

theorem rootServer_lastChanged : LastChanged rootServer := by
  have answer : ∀ rev r, rootServer.createdRev rev = some r →
      (r = 4 ∧ (rev = -1 ∨ 4 ≤ rev)) ∨ (r = rev ∧ 0 ≤ rev ∧ rev < 4) := by
    intro rev r found
    simp only [rootServer] at found
    split at found
    · next late => exact .inl ⟨(Option.some.inj found).symm, late⟩
    · split at found
      · next early => exact .inr ⟨(Option.some.inj found).symm, early, by omega⟩
      · cases found
  have revisions : ∀ r, (∃ log ∈ rootServer.logs, log.revision = r) ↔ 0 ≤ r ∧ r ≤ 4 := by
    intro r
    simp [rootServer, plainLog]
    omega
  refine ⟨fun rev r found => ?_, fun rev r found => ?_, fun rev r found log member before => ?_⟩
  · have := answer rev r found
    exact (revisions r).mpr (by omega)
  · have := answer rev r found
    omega
  · have := answer rev r found
    have := (revisions log.revision).mp ⟨log, member, rfl⟩
    omega

def startingAt (start : Int) : DumpOptions := { DumpOptions.create with start := start }

/-- The state in which the round after `n` others begins. -/
def afterRounds (server : Server) (session : Session) (opts : DumpOptions) :
    Nat → Option (DumpState sys)
  | 0 => (dumpSetup server session opts).toOption
  | n + 1 => do
      let st ← afterRounds server session opts n
      let st ← (dumpStep server session st).toOption
      if st.globalRev ≤ st.opts.stop then some st else none

theorem reached_afterRounds {server : Server} {session : Session} {opts : DumpOptions} {n : Nat}
    {st : DumpState sys} (ran : afterRounds server session opts n = some st) :
    Reached server session opts st := by
  induction n generalizing st with
  | zero => exact .setup (toOption_eq_some.mp ran)
  | succ n ih =>
    rw [afterRounds, Option.bind_eq_bind, Option.bind_eq_some_iff] at ran
    obtain ⟨before, reached, ran⟩ := ran
    rw [Option.bind_eq_some_iff] at ran
    obtain ⟨after, stepped, ran⟩ := ran
    split at ran
    · next continues =>
      cases ran
      exact .round (ih reached) (toOption_eq_some.mp stepped) continues
    · cases ran

/-- The revision dumped after `n` rounds, the headers so far and the number of a copy source. -/
def sourceNumber (server : Server) (session : Session) (opts : DumpOptions) (n : Nat) (original : Int) :
    Option (Int × List (Option Int × Int) × Int × Bool) := do
  let st ← (afterRounds server session opts n : Option (DumpState .plain))
  let (log, opened) ← (openRevision server st).toOption
  return (log.revision, headers opened.out, deltaGetLocalCopyfromRev original opened.opts opened.logs,
    opened.opts.initialDryRun)

theorem sourceNumber_eq_some {server : Server} {session : Session} {opts : DumpOptions} {n : Nat}
    {original c value : Int} {printed : List (Option Int × Int)} {dry : Bool}
    (found : sourceNumber server session opts n original = some (c, printed, value, dry)) :
    ∃ (st opened : DumpState .plain) (log : LogRevision), Reached server session opts st ∧
      openRevision server st = .ok (log, opened) ∧ log.revision = c ∧ headers opened.out = printed ∧
      deltaGetLocalCopyfromRev original opened.opts opened.logs = value ∧
      opened.opts.initialDryRun = dry := by
  rw [sourceNumber, Option.bind_eq_bind, Option.bind_eq_some_iff] at found
  obtain ⟨st, reached, found⟩ := found
  rw [Option.bind_eq_bind, Option.bind_eq_some_iff] at found
  obtain ⟨⟨log, opened⟩, opens, found⟩ := found
  cases found
  exact ⟨st, opened, log, reached_afterRounds reached, toOption_eq_some.mp opens, rfl, rfl, rfl, rfl⟩

/-- The copy of `c` from revision 3, which was printed under number 2, names revision 1. -/
theorem copyfrom_rev_off_by_one :
    ∃ (st opened : DumpState .plain) (log : LogRevision), Reached rootServer rootSession (startingAt 2) st ∧
      openRevision rootServer st = .ok (log, opened) ∧ log.revision = 4 ∧
      deltaGetLocalCopyfromRev 3 opened.opts opened.logs = 1 ∧ (some 3, 2) ∈ headers opened.out ∧
      ¬ NamesSource false (rootServer.logs.map LogRevision.revision)
        (precedingHeaders rootServer rootSession (startingAt 2) 4 ++ headers opened.out) 3
        (deltaGetLocalCopyfromRev 3 opened.opts opened.logs) := by
  obtain ⟨st, opened, log, reached, opens, revision, printed, value, -⟩ := sourceNumber_eq_some
    (show sourceNumber rootServer rootSession (startingAt 2) 2 3 =
      some (4, [(some 2, 1), (some 3, 2), (some 4, 3)], 1, false) by decide)
  refine ⟨st, opened, log, reached, opens, revision, value, by rw [printed]; simp, ?_⟩
  rw [printed, value, show precedingHeaders rootServer rootSession (startingAt 2) 4 = [] by decide]
  rintro ⟨names, -⟩
  have latest : IsLatest (rootServer.logs.map LogRevision.revision) 3 3 := by
    refine ⟨by decide, by decide, fun r _ le => le⟩
  rcases names 3 latest with ⟨n, member, same⟩ | ⟨-, rejected⟩
  · simp at member
    omega
  · omega

/-- Without a range the same copy names the revision it was made from. -/
theorem copyfrom_rev_whole :
    ∃ (st opened : DumpState .plain) (log : LogRevision), Reached rootServer rootSession (startingAt 0) st ∧
      openRevision rootServer st = .ok (log, opened) ∧ log.revision = 4 ∧
      NamesSource false (rootServer.logs.map LogRevision.revision)
        (precedingHeaders rootServer rootSession (startingAt 0) 4 ++ headers opened.out) 3
        (deltaGetLocalCopyfromRev 3 opened.opts opened.logs) := by
  obtain ⟨st, opened, log, reached, opens, revision, printed, value, wet⟩ := sourceNumber_eq_some
    (show sourceNumber rootServer rootSession (startingAt 0) 4 3 =
      some (4, [(some 0, 0), (some 1, 1), (some 2, 2), (some 3, 3), (some 4, 4)], 3, false) by decide)
  refine ⟨st, opened, log, reached, opens, revision, ?_⟩
  have iff := copyfrom_rev_iff rootServer_increasing rootServer_lastChanged rfl (by decide)
    (show rootServer.createdRev (startingAt 0).stop = some 4 by decide) reached opens wet
    (show (startingAt 0).start ≤ 3 by decide) (by rw [revision]; decide)
  exact iff.mpr (.inr (.inr (.inl rfl)))

end Rsvndump
