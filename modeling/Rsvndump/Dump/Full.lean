import Rsvndump.Dump.Selection

/-! The revision numbers of a dump that does not start in the middle.

The list of what is left to dump shrinks by one entry in each round, whatever
gaps there are between the logged revisions; the numbers follow from it.
-/

set_option autoImplicit false

namespace Rsvndump

open Library

variable {sys : Platform}

/-! ## Consecutive numbers -/

/-- The `count` numbers from `first` on. -/
def numbersFrom (first : Int) (count : Nat) : List Int := (List.range count).map fun i : Nat => first + i

theorem numbersFrom_append (first : Int) (count more : Nat) :
    numbersFrom first count ++ numbersFrom (first + count) more = numbersFrom first (count + more) := by
  unfold numbersFrom
  rw [List.range_add, List.map_append, List.map_map]
  congr 1
  apply List.map_congr_left
  intro i _
  simp only [Function.comp_apply]
  push_cast
  omega

theorem roundHeaders_numbers {keep : Bool} {next revision : Int} (low : keep = true → next ≤ revision) :
    (roundHeaders keep next revision).map Prod.snd =
      numbersFrom next (printedNumber keep next revision + 1 - next).toNat := by
  cases keep with
  | false =>
    have one : (printedNumber false next revision + 1 - next).toNat = 1 := by
      simp only [printedNumber, Bool.false_eq_true, if_false]
      omega
    rw [one]
    simp [roundHeaders, padding, printedNumber, numbersFrom]
  | true =>
    have here := low rfl
    have count : (printedNumber true next revision + 1 - next).toNat = (revision - next).toNat + 1 := by
      simp only [printedNumber, if_true]
      omega
    have number : next + ((revision - next).toNat : Int) = max next revision := by omega
    rw [count, ← numbersFrom_append, number]
    simp [roundHeaders, padding, printedNumber, numbersFrom]

/-- Headers are numbered without gaps. -/
theorem numberHeaders_numbers {keep : Bool} {next : Int} {revs : List Int} (sorted : revs.Pairwise (· < ·))
    (low : keep = true → ∀ r ∈ revs, next ≤ r) :
    (numberHeaders keep next revs).map Prod.snd = numbersFrom next (numberHeaders keep next revs).length := by
  induction revs generalizing next with
  | nil => rfl
  | cons revision rest ih =>
    obtain ⟨later, sorted⟩ := List.pairwise_cons.mp sorted
    have here : keep = true → next ≤ revision := fun kept => low kept revision List.mem_cons_self
    have low' : keep = true → ∀ r ∈ rest, printedNumber keep next revision + 1 ≤ r := by
      rintro rfl r member
      have := later r member
      have := here rfl
      simp only [printedNumber, if_true]
      omega
    have numbers := roundHeaders_numbers here
    have size : (roundHeaders keep next revision).length = (printedNumber keep next revision + 1 - next).toNat := by
      have := congrArg List.length numbers
      simpa [numbersFrom] using this
    have above : next ≤ printedNumber keep next revision := by
      unfold printedNumber
      split <;> omega
    rw [numberHeaders, List.map_append, List.length_append, numbers, ih sorted low', ← numbersFrom_append, size]
    congr 2
    omega

/-! ## Failures -/

/-- A loop that fails has opened a revision and failed to dump it. -/
theorem Pending.loop_error {server : Server} {session : Session} {rest : List LogRevision} {fuel : Nat}
    {st : DumpState sys} {e : Failure sys} (pending : Pending server st rest) (some_left : rest ≠ [])
    (failed : dumpLoop server session fuel st = some (.error e)) :
    ∃ before log opened, openRevision server before = .ok (log, opened) ∧
      dumpStep server session before = .error e := by
  induction fuel generalizing st rest with
  | zero => simp [dumpLoop] at failed
  | succ fuel ih =>
    rw [dumpLoop] at failed
    cases rest with
    | nil => exact absurd rfl some_left
    | cons log tail =>
      cases ran : dumpStep server session st with
      | error e' =>
        rw [ran] at failed
        cases failed
        obtain ⟨mid, next, found, -⟩ := pending.next
        have opens : openRevision server st = .ok (log, printHeader log (padTo log.revision mid)) := by
          unfold openRevision
          rw [next, ok_bind, found]
          rfl
        exact ⟨st, log, _, opens, ran⟩
      | ok st' =>
        rw [ran] at failed
        obtain ⟨pending', go_on, -⟩ := pending.step ran
        dsimp only at failed
        split at failed
        · next continues => exact ih pending' (go_on.mp continues) failed
        · cases failed

/-! ## Whole dumps -/

/-- The headers of a dump of the logged revisions `revs`. -/
structure NumbersRange (keep : Bool) (revs : List Int) (printed : List (Option Int × Int)) : Prop where
  consecutive : printed.map Prod.snd = numbersFrom (if revs.head? = some 0 then 0 else 1) printed.length
  dumped : printed.filterMap Prod.fst = revs
  kept : keep = true → ∀ r n, (some r, n) ∈ printed → n = r
  plain : keep = false → ∀ n, (none, n) ∉ printed

/-- The logged revisions of a range. -/
def loggedIn (server : Server) (start stop : Int) : List Int :=
  (server.logs.map LogRevision.revision).filter fun r => start ≤ r ∧ r ≤ stop

theorem loggedIn_eq (server : Server) (start stop : Int) :
    loggedIn server start stop =
      (server.logs.filter fun log => start ≤ log.revision ∧ log.revision ≤ stop).map LogRevision.revision :=
  (map_filter_revision server.logs fun r => decide (start ≤ r ∧ r ≤ stop)).symm

theorem loggedIn_sorted {server : Server} {session : Session} (increasing : Increasing session server)
    (start stop : Int) : (loggedIn server start stop).Pairwise (· < ·) :=
  (List.pairwise_map.mpr increasing.logs).sublist List.filter_sublist

/-- Numbering starts at 0 exactly if the first revision is 0. -/
theorem numbersRange_numberHeaders {keep : Bool} {start : Int} {revs : List Int} (sorted : revs.Pairwise (· < ·))
    (valid : 0 ≤ start) (above : ∀ r ∈ revs, start ≤ r) (rooted : start = 0 → 0 ∈ revs) :
    NumbersRange keep revs (numberHeaders keep (if start = 0 then 0 else 1) revs) := by
  have low : ∀ r ∈ revs, (if start = 0 then 0 else 1) ≤ r := by
    intro r member
    have := above r member
    split <;> omega
  have first : (if revs.head? = some 0 then 0 else 1) = (if start = 0 then (0 : Int) else 1) := by
    cases revs with
    | nil => simp_all
    | cons r rest =>
      by_cases zero : start = 0
      · have head : r = 0 := by
          have := above r List.mem_cons_self
          rcases List.mem_cons.mp (rooted zero) with same | later
          · exact same.symm
          · have := (List.pairwise_cons.mp sorted).1 0 later
            omega
        simp [zero, head]
      · have : r ≠ 0 := by
          have := above r List.mem_cons_self
          omega
        simp [zero, this]
  refine ⟨?_, numberHeaders_revisions keep _ revs, ?_, ?_⟩
  · rw [first]
    exact numberHeaders_numbers sorted fun _ => low
  · rintro rfl r n member
    exact ((mem_numberHeaders_keep sorted low member).1 r rfl).1
  · rintro rfl n member
    exact not_pad_mem_plain member

/-- A dump that does not start in the middle ends. If it does not fail while it dumps one of the
revisions, it prints each logged revision of its range once and numbers them without gaps. -/
theorem full_range_numbered {server : Server} {session : Session} (increasing : Increasing session server)
    (rooted : session.prefixPath = [] → ∃ log ∈ server.logs, log.revision = 0) {opts range : DumpOptions}
    (incremental : opts.incremental = false) (wet : opts.initialDryRun = false) (valid : 0 ≤ opts.start)
    (adjusted : adjustRange server session opts.formatted = .ok range) (ordered : range.start ≤ range.stop)
    (logged : ∃ log ∈ server.logs, log.revision = range.stop) :
    ∃ result : Result sys (DumpState sys), dump server session opts = some result ∧
      (∀ st, result = .ok st →
        NumbersRange opts.keepRevnums (loggedIn server range.start range.stop) (headers st.out)) ∧
      ∀ e, result = .error e → (dumpSetup server session opts : Result sys (DumpState sys)) = .error e ∨
        ∃ before log opened, openRevision server before = .ok (log, opened) ∧
          dumpStep server session before = .error e := by
  unfold dump
  cases setup : (dumpSetup server session opts : Result sys (DumpState sys)) with
  | error e => exact ⟨.error e, rfl, by simp, fun e' same => .inl (by rw [Except.error.inj same])⟩
  | ok st =>
    obtain ⟨range', adjusted', -, whole⟩ := dumpSetup_ok setup
    cases Except.ok.inj (adjusted'.symm.trans adjusted)
    have st_eq := whole (by simp [startMid, incremental])
    have positive := adjustRange_positive increasing adjusted
    have nonneg := adjustRange_nonneg increasing adjusted (by simpa using valid)
    have pending := @setupFull_pending sys _ _ increasing _ nonneg positive logged
    have fields := @setupFull_fields sys server session _ positive
    rw [← st_eq] at pending fields
    obtain ⟨shape, -⟩ := adjustRange_start adjusted
    have dry : st.opts.initialDryRun = false := by
      rw [fields, shape]
      simpa using wet
    have keep : st.opts.keepRevnums = opts.keepRevnums := by
      rw [fields, shape]
      simp
    have nonempty : (server.logs.filter fun log => range.start ≤ log.revision ∧ log.revision ≤ range.stop) ≠ [] := by
      obtain ⟨log, member, same⟩ := logged
      exact List.ne_nil_of_mem (List.mem_filter.mpr ⟨member, by simp; omega⟩)
    obtain ⟨result, looped, counted⟩ := pending.loop session nonempty
      (Nat.le_succ_of_le (List.length_filter_le _ _)) dry
    refine ⟨result, looped, fun final ok => ?_, fun e failed => .inr ?_⟩
    · have number : st.localRev = if range.start = 0 then 0 else 1 := by rw [fields]
      have start_out : headers st.out = [] := by rw [fields]; simp
      rw [counted final ok, start_out, keep, number, List.nil_append, ← loggedIn_eq]
      apply numbersRange_numberHeaders (loggedIn_sorted increasing _ _) nonneg
      · intro r member
        have := (List.mem_filter.mp member).2
        simp only [decide_eq_true_eq] at this
        exact this.1
      · intro zero
        have root : session.prefixPath = [] := by
          by_contra sub
          exact positive (List.length_pos_iff.mpr sub) zero
        obtain ⟨log, member, same⟩ := rooted root
        refine List.mem_filter.mpr ⟨same ▸ List.mem_map_of_mem member, ?_⟩
        simp only [decide_eq_true_eq]
        omega
    · exact pending.loop_error nonempty (failed ▸ looped)

/-- A dump from revision 2 on that keeps the numbers. -/
def keptFromTwo : DumpOptions := { DumpOptions.create with start := 2, keepRevnums := true }

theorem full_range_numbered_padded :
    ∃ st : DumpState .plain, dump trunkServer trunkSession keptFromTwo = some (.ok st) ∧
      headers st.out = [(none, 1), (some 2, 2)] ∧
      NumbersRange true (loggedIn trunkServer 2 2) (headers st.out) := by
  obtain ⟨st, ok, printed⟩ := streamHeaders_eq_some (show streamHeaders
    (dump trunkServer trunkSession keptFromTwo : Option (Result .plain (DumpState .plain))) =
      some [(none, 1), (some 2, 2)] by decide)
  obtain ⟨result, ran, numbered, -⟩ := @full_range_numbered .plain _ _ trunkServer_increasing
    (fun root => absurd root (by decide)) keptFromTwo { keptFromTwo with stop := 2 } rfl rfl (by decide) rfl
    (by decide) ⟨plainLog 2 [⟨cstr "a", .add, none⟩], by simp [trunkServer], rfl⟩
  rw [ok] at ran
  exact ⟨st, ok, printed, numbered st (Option.some.inj ran).symm⟩

end Rsvndump
