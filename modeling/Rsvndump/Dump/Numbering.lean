import Rsvndump.Dump.Loop
import Rsvndump.Library.Result

/-! Revision headers of a dump.

The control flow of the main loop depends on the log list and on the options
only. `Pending` says which log entries a state has still to dump, whether the
list was fetched at once or grows with the loop, and `numberHeaders` is what is
printed for them.
-/

set_option autoImplicit false

namespace Rsvndump

open Library

variable {sys : Platform}

/-! ## Headers -/

/-- The revision headers of a stream with their numbers; padding has no original revision. -/
def headers (out : List Output) : List (Option Int × Int) :=
  out.filterMap fun
    | .revision log number => some (some log.revision, number)
    | .padding number => some (none, number)
    | _ => none

@[simp] theorem headers_nil : headers [] = [] := rfl

@[simp] theorem headers_append (out more : List Output) : headers (out ++ more) = headers out ++ headers more :=
  List.filterMap_append

@[simp] theorem headers_node (records : List NodeRecord) : headers (records.map .node) = [] := by
  simp [headers]

@[simp] theorem headers_prefixDir (dirs : List CString) : headers (dirs.map .prefixDir) = [] := by
  simp [headers]

/-- The padding printed for the numbers from `next` up to `revision`. -/
def padding (keep : Bool) (next revision : Int) : List (Option Int × Int) :=
  if keep then (List.range (revision - next).toNat).map fun i : Nat => (none, next + Int.ofNat i) else []

/-- The number a revision is printed under when `next` is the next free one. -/
def printedNumber (keep : Bool) (next revision : Int) : Int := if keep then max next revision else next

def roundHeaders (keep : Bool) (next revision : Int) : List (Option Int × Int) :=
  padding keep next revision ++ [(some revision, printedNumber keep next revision)]

/-- The headers printed for a list of original revisions. -/
def numberHeaders (keep : Bool) : Int → List Int → List (Option Int × Int)
  | _, [] => []
  | next, revision :: rest =>
      roundHeaders keep next revision ++ numberHeaders keep (printedNumber keep next revision + 1) rest

/-! ## Control fields -/

/-- The options that decide on the course of the loop. -/
def DumpOptions.control (opts : DumpOptions) : DumpOptions := { opts with userPrefix := none }

/-- The options after the first round: no other revision is dumped dry. -/
def DumpOptions.wet (opts : DumpOptions) : DumpOptions := { opts with initialDryRun := false }

/-- Two states from which the loop takes the same course. -/
structure SameControl (st st' : DumpState sys) : Prop where
  opts : st'.opts.control = st.opts.control
  logs : st'.logs = st.logs
  fetched : st'.logsFetched = st.logsFetched
  globalRev : st'.globalRev = st.globalRev
  listIdx : st'.listIdx = st.listIdx

theorem SameControl.refl (st : DumpState sys) : SameControl st st := ⟨rfl, rfl, rfl, rfl, rfl⟩

theorem SameControl.trans {a b c : DumpState sys} (first : SameControl a b) (second : SameControl b c) :
    SameControl a c :=
  ⟨second.opts.trans first.opts, second.logs.trans first.logs, second.fetched.trans first.fetched,
    second.globalRev.trans first.globalRev, second.listIdx.trans first.listIdx⟩

/-- A field that --prefix does not touch. -/
theorem control_field {opts opts' : DumpOptions} (same : opts'.control = opts.control) {V : Type}
    (field : DumpOptions → V) (kept : ∀ o : DumpOptions, field o.control = field o) :
    field opts' = field opts := by
  rw [← kept opts', same, kept opts]

theorem setupPrefix_control (st : DumpState sys) :
    SameControl st (setupPrefix st) ∧ (setupPrefix st).localRev = st.localRev ∧
      headers (setupPrefix st).out = headers st.out ∧ (setupPrefix st).delta = st.delta := by
  unfold setupPrefix dumpCreateUserPrefix
  split
  · split
    · exact ⟨.refl st, rfl, rfl, rfl⟩
    · exact ⟨⟨rfl, rfl, rfl, rfl, rfl⟩, rfl, by simp, rfl⟩
  · exact ⟨.refl st, rfl, rfl, rfl⟩

theorem padRevision_control (st : DumpState sys) :
    SameControl st (padRevision st) ∧ (padRevision st).localRev = st.localRev + 1 ∧
      headers (padRevision st).out = headers st.out ++ [(none, st.localRev)] := by
  obtain ⟨same, number, printed, -⟩ := setupPrefix_control { st with
    out := st.out ++ [.padding st.localRev]
    delta := { st.delta with repo := st.delta.repo.commit st.localRev } }
  refine ⟨⟨same.opts, same.logs, same.fetched, same.globalRev, same.listIdx⟩, ?_, ?_⟩
  · simp only [padRevision, number]
  · simp only [padRevision, printed, headers_append]
    rfl

theorem padRevisions_control (n : Nat) (st : DumpState sys) :
    SameControl st (padRevisions n st) ∧ (padRevisions n st).localRev = st.localRev + n ∧
      headers (padRevisions n st).out =
        headers st.out ++ (List.range n).map fun i : Nat => (none, st.localRev + Int.ofNat i) := by
  induction n generalizing st with
  | zero => exact ⟨.refl st, by simp [padRevisions], by simp [padRevisions]⟩
  | succ n ih =>
    obtain ⟨same, number, printed⟩ := padRevision_control st
    obtain ⟨same', number', printed'⟩ := ih (padRevision st)
    rw [padRevisions]
    refine ⟨same.trans same', ?_, ?_⟩
    · rw [number', number]
      push_cast
      omega
    · rw [printed', printed, number, List.range_succ_eq_map, List.map_cons, List.map_map,
        List.append_assoc]
      congr 1
      simp only [List.singleton_append, List.cons.injEq, Prod.mk.injEq, true_and]
      refine ⟨by simp, List.map_congr_left fun i _ => ?_⟩
      simp only [Function.comp_apply, Prod.mk.injEq, true_and, Int.ofNat_eq_natCast]
      push_cast
      omega

theorem padTo_control (revision : Int) (st : DumpState sys) :
    SameControl st (padTo revision st) ∧
      (padTo revision st).localRev =
        (if st.opts.initialDryRun then st.localRev
        else printedNumber st.opts.keepRevnums st.localRev revision) ∧
      headers (padTo revision st).out =
        headers st.out ++
          (if st.opts.initialDryRun then [] else padding st.opts.keepRevnums st.localRev revision) := by
  unfold padTo
  split
  · next active =>
    obtain ⟨same, number, printed⟩ := padRevisions_control (revision - st.localRev).toNat st
    refine ⟨same, ?_, ?_⟩
    · rw [number, active.2, printedNumber, active.1]
      simp only [Bool.false_eq_true, if_false, if_true]
      omega
    · rw [printed, active.2, padding, active.1]
      simp
  · next inactive =>
    refine ⟨.refl st, ?_, ?_⟩
    · cases dry : st.opts.initialDryRun <;> cases keep : st.opts.keepRevnums <;>
        simp_all [printedNumber]
    · cases dry : st.opts.initialDryRun <;> cases keep : st.opts.keepRevnums <;> simp_all [padding]

theorem printHeader_control (log : LogRevision) (st : DumpState sys) :
    SameControl st (printHeader log st) ∧ (printHeader log st).localRev = st.localRev ∧
      headers (printHeader log st).out =
        headers st.out ++ (if st.opts.initialDryRun then [] else [(some log.revision, st.localRev)]) := by
  unfold printHeader
  split
  · next dry => exact ⟨.refl st, rfl, by simp⟩
  · next wet =>
    obtain ⟨same, number, printed, -⟩ := setupPrefix_control { st with out := st.out ++ [.revision log st.localRev] }
    refine ⟨⟨same.opts, same.logs, same.fetched, same.globalRev, same.listIdx⟩, number, ?_⟩
    rw [printed]
    simp [headers]

/-! ## Rounds -/

theorem nextLog_control {server : Server} {st mid : DumpState sys} (next : nextLog server st = .ok mid) :
    mid.opts = st.opts ∧ mid.localRev = st.localRev ∧ mid.out = st.out ∧ mid.delta = st.delta ∧
      mid.globalRev = st.globalRev ∧ mid.logsFetched = st.logsFetched := by
  unfold nextLog at next
  split at next
  · cases next
    exact ⟨rfl, rfl, rfl, rfl, rfl, rfl⟩
  · obtain ⟨log, -, returned⟩ := bind_eq_ok.mp next
    cases returned
    exact ⟨rfl, rfl, rfl, rfl, rfl, rfl⟩

/-- The number a round prints its revision under; a dry run prints nothing. -/
def roundNumber (st : DumpState sys) (revision : Int) : Int :=
  if st.opts.initialDryRun then st.localRev else printedNumber st.opts.keepRevnums st.localRev revision

theorem openRevision_control {server : Server} {st opened : DumpState sys} {log : LogRevision}
    (opens : openRevision server st = .ok (log, opened)) :
    ∃ mid, nextLog server st = .ok mid ∧ logAt mid.logs mid.listIdx = .ok log ∧ SameControl mid opened ∧
      opened.localRev = roundNumber st log.revision ∧
      headers opened.out = headers st.out ++
        (if st.opts.initialDryRun then [] else roundHeaders st.opts.keepRevnums st.localRev log.revision) := by
  obtain ⟨mid, next, opens⟩ := bind_eq_ok.mp opens
  obtain ⟨log', found, opens⟩ := bind_eq_ok.mp opens
  cases opens
  rw [TracedRepo.lift_eq_ok] at found
  obtain ⟨opts, number, out, -, -, -⟩ := nextLog_control next
  obtain ⟨same, padded, pads⟩ := padTo_control log.revision mid
  obtain ⟨same', number', printed⟩ := printHeader_control log (padTo log.revision mid)
  have dry := control_field same.opts DumpOptions.initialDryRun fun _ => rfl
  refine ⟨mid, next, found, same.trans same', ?_, ?_⟩
  · rw [number', padded, roundNumber, opts, number]
  · rw [printed, pads, padded, dry, opts, number, out]
    cases st.opts.initialDryRun <;> simp [roundHeaders]

/-- What a round that succeeds leaves behind. -/
theorem dumpStep_control {server : Server} {session : Session} {st st' : DumpState sys}
    (ran : dumpStep server session st = .ok st') :
    ∃ log opened, openRevision server st = .ok (log, opened) ∧
      st'.opts.control = st.opts.wet.control ∧ st'.logs = opened.logs ∧
      st'.logsFetched = st.logsFetched ∧ st'.listIdx = opened.listIdx ∧
      st'.globalRev = log.revision + 1 ∧ st'.localRev = roundNumber st log.revision + 1 ∧
      headers st'.out = headers opened.out := by
  obtain ⟨⟨log, opened⟩, opens, ran⟩ := bind_eq_ok.mp ran
  obtain ⟨edited, edits, ran⟩ := bind_eq_ok.mp ran
  obtain ⟨committed, commits, ran⟩ := bind_eq_ok.mp ran
  obtain ⟨propStore, -, ran⟩ := bind_eq_ok.mp ran
  cases ran
  obtain ⟨delta, -, returned⟩ := bind_eq_ok.mp edits
  cases returned
  obtain ⟨mid, next, -, same, number, -⟩ := openRevision_control opens
  obtain ⟨opts, -, -, -, -, fetched⟩ := nextLog_control next
  have kept : committed.opts = opened.opts ∧ committed.logs = opened.logs ∧
      committed.logsFetched = opened.logsFetched ∧ committed.listIdx = opened.listIdx ∧
      committed.localRev = opened.localRev ∧ headers committed.out = headers opened.out := by
    unfold commitRevision at commits
    split at commits
    · obtain ⟨repo, -, returned⟩ := bind_eq_ok.mp commits
      cases returned
      simp
    · cases commits
      simp
  obtain ⟨opts', logs', fetched', listIdx', localRev', out'⟩ := kept
  refine ⟨log, opened, opens, ?_, logs', ?_, listIdx', rfl, ?_, out'⟩
  · have control := same.opts
    rw [opts] at control
    simp only [opts']
    exact congrArg DumpOptions.wet control
  · rw [fetched', same.fetched, fetched]
  · rw [localRev', number]

/-! ## Pending entries -/

/-- The log entries a state has still to dump. -/
structure Pending (server : Server) (st : DumpState sys) (rest : List LogRevision) : Prop where
  sorted : rest.Pairwise fun a b => a.revision < b.revision
  last : ∀ log ∈ rest.getLast?, log.revision = st.opts.stop
  fetched : st.logsFetched = true → -1 ≤ st.listIdx ∧ rest = st.logs.drop (st.listIdx + 1).toNat
  numbered : st.logsFetched = false → 0 ≤ st.globalRev
  single : st.logsFetched = false →
    rest = server.logs.filter fun log => st.globalRev ≤ log.revision ∧ log.revision ≤ st.opts.stop

theorem Pending.bound {server : Server} {st : DumpState sys} {rest : List LogRevision}
    (pending : Pending server st rest) {log : LogRevision} (member : log ∈ rest) :
    log.revision ≤ st.opts.stop := by
  cases rest using List.reverseRecOn with
  | nil => cases member
  | append_singleton init final =>
    have final_eq := pending.last final (by simp)
    rcases List.mem_append.mp member with early | late
    · have := (List.pairwise_append.mp pending.sorted).2.2 log early final (by simp)
      omega
    · rw [List.mem_singleton.mp late, final_eq]

/-- The next entry of the list is the one that is dumped. -/
theorem Pending.next {server : Server} {st : DumpState sys} {log : LogRevision} {tail : List LogRevision}
    (pending : Pending server st (log :: tail)) :
    ∃ mid, nextLog server st = .ok mid ∧ logAt mid.logs mid.listIdx = .ok log ∧
      (st.logsFetched = true → mid.logs = st.logs ∧ mid.listIdx = st.listIdx + 1) ∧
      (st.logsFetched = false → mid.logs = st.logs ++ [log] ∧ mid.listIdx = st.logs.length) := by
  unfold nextLog
  cases mode : st.logsFetched with
  | true =>
    obtain ⟨low, rest⟩ := pending.fetched mode
    refine ⟨{ st with listIdx := st.listIdx + 1 }, by simp [mode], ?_, by simp, by simp⟩
    have found : st.logs[(st.listIdx + 1).toNat]? = some log := by
      rw [← List.head?_drop, ← rest, List.head?_cons]
    simp only [logAt, if_neg (by omega : ¬ st.listIdx + 1 < 0), orError_eq_ok, found]
  | false =>
    have rest := pending.single mode
    have member : log ∈ server.logs.filter fun log => st.globalRev ≤ log.revision ∧ log.revision ≤ st.opts.stop := by
      rw [← rest]
      exact List.mem_cons_self
    have bounds := (List.mem_filter.mp member).2
    simp only [decide_eq_true_eq] at bounds
    have fetch : logFetchSingle server.logs st.globalRev st.opts.stop = .ok log := by
      have := pending.numbered mode
      rw [logFetchSingle, svnRaGetLog, if_neg (by omega), if_pos (by omega), ← rest, List.head?_cons, orError_eq_ok]
    refine ⟨{ st with logs := st.logs ++ [log], listIdx := (st.logs ++ [log]).length - 1 }, ?_, ?_, by simp, ?_⟩
    · simp [mode, fetch, TracedRepo.lift]
    · simp [logAt, orError, Int.not_lt.mpr (Int.natCast_nonneg _)]
    · intro _
      simp

theorem Pending.opens {server : Server} {st opened : DumpState sys} {log log' : LogRevision}
    {tail : List LogRevision} (pending : Pending server st (log :: tail))
    (opens : openRevision server st = .ok (log', opened)) : log' = log := by
  obtain ⟨mid, next, found, -⟩ := pending.next
  obtain ⟨mid', next', found', -⟩ := openRevision_control opens
  cases Except.ok.inj (next.symm.trans next')
  exact Except.ok.inj (found'.symm.trans found)

/-- A round takes the first pending entry away; the loop goes on exactly if one is left. -/
theorem Pending.step {server : Server} {session : Session} {st st' : DumpState sys} {log : LogRevision}
    {tail : List LogRevision} (pending : Pending server st (log :: tail))
    (ran : dumpStep server session st = .ok st') :
    Pending server st' tail ∧ (st'.globalRev ≤ st'.opts.stop ↔ tail ≠ []) ∧
      st'.opts.control = st.opts.wet.control ∧
      st'.localRev = roundNumber st log.revision + 1 ∧
      headers st'.out = headers st.out ++
        (if st.opts.initialDryRun then [] else roundHeaders st.opts.keepRevnums st.localRev log.revision) ∧
      st'.logsFetched = st.logsFetched ∧
      st'.logs = (if st.logsFetched then st.logs else st.logs ++ [log]) := by
  obtain ⟨log', opened, opens, opts, logs, fetched, listIdx, globalRev, localRev, printed⟩ := dumpStep_control ran
  cases pending.opens opens
  obtain ⟨mid, next, found, same, -, headers⟩ := openRevision_control opens
  obtain ⟨mid', next', -, whole, growing⟩ := pending.next
  cases Except.ok.inj (next.symm.trans next')
  have stop : st'.opts.stop = st.opts.stop := control_field opts DumpOptions.stop fun _ => rfl
  have later : ∀ log' ∈ tail, log.revision < log'.revision := (List.pairwise_cons.mp pending.sorted).1
  have low : st.logsFetched = false → st.globalRev ≤ log.revision := by
    intro mode
    have member : log ∈ server.logs.filter fun log => st.globalRev ≤ log.revision ∧ log.revision ≤ st.opts.stop := by
      rw [← pending.single mode]
      exact List.mem_cons_self
    have bounds := (List.mem_filter.mp member).2
    simp only [decide_eq_true_eq] at bounds
    exact bounds.1
  refine ⟨⟨(List.pairwise_cons.mp pending.sorted).2, ?_, ?_, ?_, ?_⟩, ?_, opts, localRev, by rw [printed, headers],
    fetched, ?_⟩
  -- the last pending entry stays the last one
  · intro final member
    rw [stop]
    apply pending.last
    rw [List.getLast?_cons]
    rw [Option.mem_def] at member
    simp [member]
  · intro mode
    rw [fetched] at mode
    -- a list fetched at once is gone through by its index
    obtain ⟨low, rest⟩ := pending.fetched mode
    obtain ⟨logs', listIdx'⟩ := whole mode
    have index : st'.listIdx = st.listIdx + 1 := by rw [listIdx, same.listIdx, listIdx']
    refine ⟨by omega, ?_⟩
    rw [logs, same.logs, logs', index]
    have advance : (st.listIdx + 1 + 1).toNat = (st.listIdx + 1).toNat + 1 := by omega
    rw [advance, ← List.tail_drop, ← rest, List.tail_cons]
  · intro mode
    rw [fetched] at mode
    have := pending.numbered mode
    have := low mode
    omega
  · intro mode
    rw [fetched] at mode
    -- entries fetched one by one: the window moves behind the one just taken
    have rest := pending.single mode
    have narrowed : (server.logs.filter fun log => st.globalRev ≤ log.revision ∧ log.revision ≤ st.opts.stop).filter
        (fun log' => decide (log.revision + 1 ≤ log'.revision)) = tail := by
      rw [← rest, List.filter_cons_of_neg (by rw [decide_eq_true_eq]; omega)]
      apply List.filter_eq_self.mpr
      intro log' member
      have := later log' member
      simp
      omega
    have := low mode
    rw [← narrowed, List.filter_filter, globalRev, stop]
    apply List.filter_congr
    intro log' _
    rw [Bool.eq_iff_iff]
    simp only [decide_eq_true_eq, Bool.and_eq_true]
    omega
  · rw [globalRev, stop]
    constructor
    -- behind the last entry the loop has passed the end of the range
    · rintro le rfl
      have := pending.last log (by simp)
      omega
    · intro more
      obtain ⟨log', member⟩ := List.exists_mem_of_ne_nil tail more
      have := later log' member
      have := pending.bound (List.mem_cons_of_mem log member)
      omega
  · rw [logs, same.logs]
    cases mode : st.logsFetched with
    | true => exact (whole mode).1
    | false => exact (growing mode).1

/-- The whole loop prints one header for each pending entry and ends. -/
theorem Pending.loop {server : Server} {rest : List LogRevision} {fuel : Nat} {st : DumpState sys}
    (pending : Pending server st rest) (session : Session) (some_left : rest ≠ [])
    (enough : rest.length ≤ fuel) (wet : st.opts.initialDryRun = false) :
    ∃ result, dumpLoop server session fuel st = some result ∧
      ∀ st', result = .ok st' → headers st'.out =
        headers st.out ++ numberHeaders st.opts.keepRevnums st.localRev (rest.map LogRevision.revision) := by
  induction rest generalizing st fuel with
  | nil => exact absurd rfl some_left
  | cons log tail ih =>
    cases fuel with
    | zero => simp at enough
    | succ fuel =>
      rw [dumpLoop]
      cases ran : dumpStep server session st with
      | error e => exact ⟨.error e, rfl, by simp⟩
      | ok st' =>
        obtain ⟨pending', go_on, opts, localRev, printed, -⟩ := pending.step ran
        have wet' : st'.opts.initialDryRun = false := 
          control_field opts DumpOptions.initialDryRun fun _ => rfl
        have keep : st'.opts.keepRevnums = st.opts.keepRevnums := 
          control_field opts DumpOptions.keepRevnums fun _ => rfl
        have number : st'.localRev = printedNumber st.opts.keepRevnums st.localRev log.revision + 1 := by
          rw [localRev, roundNumber, wet]
          simp
        simp only [wet, Bool.false_eq_true, if_false] at printed
        by_cases done : tail = []
        · subst done
          have finished : ¬ st'.globalRev ≤ st'.opts.stop := fun le => (go_on.mp le) rfl
          refine ⟨.ok st', by simp [finished], ?_⟩
          intro final same
          cases same
          rw [printed]
          simp [numberHeaders]
        · have continues := go_on.mpr done
          obtain ⟨result, looped, counted⟩ := ih pending' done (by simpa using enough) wet'
          refine ⟨result, by simp [continues, looped], ?_⟩
          intro final ok
          rw [counted final ok, printed, keep, number, List.map_cons, numberHeaders, List.append_assoc]

end Rsvndump
