import Rsvndump.Delta.Checksums
import Rsvndump.Dump.Coherence

/-! The texts of the files over whole dumps.

In each round the repository's texts and the program's copies of them are
changed by the same edit, and the records written are those of this edit.
-/

set_option autoImplicit false

namespace Rsvndump

open Library

variable {sys : Platform} {server : Server} {session : Session} {opts : DumpOptions}

/-! ## Rounds -/

/-- The calls of one round. -/
def roundEdit (server : Server) (log : LogRevision) (opened : DumpState sys) : Edit :=
  server.diff (diffBase opened) log.revision (opened.globalRev = opened.opts.start)

/-- What the rounds of a dump lead to: the texts in each revision a loader has, those in the last
revision dumped, the local copies, and the texts as they were last recorded. -/
structure TextHistory where
  loaded : Int → Texts
  texts : Texts
  copies : Texts
  recorded : Texts

/-- Nothing is known at first but what a loader has from before. -/
def TextHistory.start (loaded : Int → Texts) : TextHistory := ⟨loaded, fun _ => none, fun _ => none, fun _ => none⟩

/-- An edit and its records. Revisions that are skipped or padded have the texts of the last one. -/
def TextHistory.next (history : TextHistory) (baton : DeBaton) (edit : Edit) (records : List NodeRecord) : TextHistory :=
  let after := edit.children.texts history.texts
  { loaded := fun revision => if baton.localRevnum ≤ revision then after else history.loaded revision
    texts := after
    copies := copiesAfter baton.logRevision edit history.copies
    recorded := recordTexts baton after (edit.children.leaves history.recorded) records }

/-- One round of the loop, for which `condition` holds when the editor is set up. -/
structure TextRound (condition : DeBaton → Edit → Texts → TracedRepo sys → Prop) (server : Server) (session : Session)
    (history : TextHistory) (st : DumpState sys) (log : LogRevision) (opened st' : DumpState sys) : Prop where
  opens : openRevision server st = .ok (log, opened)
  promised : Promised (editorBaton session opened log) (roundEdit server log opened) history.texts
  condition : condition (editorBaton session opened log) (roundEdit server log opened) history.copies opened.delta.repo
  ran : dumpStep server session st = .ok st'

/-- The rounds of a dump. -/
inductive TextRun (condition : DeBaton → Edit → Texts → TracedRepo sys → Prop) (server : Server) (session : Session)
    (opts : DumpOptions) : TextHistory → DumpState sys → Prop
  | setup {st : DumpState sys} (loaded : Int → Texts) : dumpSetup server session opts = .ok st →
      TextRun condition server session opts (.start loaded) st
  | round {history : TextHistory} {st opened st' : DumpState sys} {log : LogRevision} :
      TextRun condition server session opts history st → TextRound condition server session history st log opened st' →
      TextRun condition server session opts
        (history.next (editorBaton session opened log) (roundEdit server log opened) st'.delta.out) st'

theorem padRevisions_delta (n : Nat) (st : DumpState sys) :
    (padRevisions n st).delta = { st.delta with repo := (padRevisions n st).delta.repo } := by
  induction n generalizing st with
  | zero => rfl
  | succ n ih =>
    rw [padRevisions, ih]
    have first : (padRevision st).delta = { st.delta with repo := st.delta.repo.commit st.localRev } :=
      (setupPrefix_delta _).1
    rw [first]

/-- Opening a revision touches at most the path storage. -/
theorem openRevision_delta {st opened : DumpState sys} {log : LogRevision} (opens : openRevision server st = .ok (log, opened)) :
    opened.delta = { st.delta with repo := opened.delta.repo } := by
  obtain ⟨mid, next, opens⟩ := bind_eq_ok.mp opens
  obtain ⟨log', -, opens⟩ := bind_eq_ok.mp opens
  cases opens
  obtain ⟨-, -, -, same, -⟩ := nextLog_control next
  have padded : (padTo log.revision mid).delta = { mid.delta with repo := (padTo log.revision mid).delta.repo } := by
    unfold padTo
    split
    · exact padRevisions_delta _ _
    · rfl
  rw [← same]
  unfold printHeader
  split
  · exact padded
  · rw [(setupPrefix_delta _).1]
    exact padded

theorem dumpSetup_delta {st : DumpState sys} (ready : dumpSetup server session opts = .ok st) :
    st.delta = { (emptyDelta : DeltaState sys) with repo := st.delta.repo } := by
  obtain ⟨range, -, ready⟩ := bind_eq_ok.mp ready
  obtain ⟨-, -, ready⟩ := bind_eq_ok.mp ready
  split at ready
  · obtain ⟨prepared, -, ready⟩ := bind_eq_ok.mp ready
    obtain ⟨base, -, ready⟩ := bind_eq_ok.mp ready
    obtain ⟨last, -, ready⟩ := bind_eq_ok.mp ready
    cases ready
    rfl
  · cases ready
    rfl

/-- The edit of a round; what follows it keeps the files and the records. -/
theorem dumpStep_edit {st opened st' : DumpState sys} {log : LogRevision} (opens : openRevision server st = .ok (log, opened))
    (ran : dumpStep server session st = .ok st') :
    ∃ delta, runEdit (editorBaton session opened log) (roundEdit server log opened) opened.delta = .ok delta ∧
      st'.delta = { delta with repo := st'.delta.repo, propStore := st'.delta.propStore } := by
  obtain ⟨⟨log', opened'⟩, opens', ran⟩ := bind_eq_ok.mp ran
  cases Except.ok.inj (opens.symm.trans opens')
  obtain ⟨edited, edits, ran⟩ := bind_eq_ok.mp ran
  obtain ⟨delta, edit, edits⟩ := bind_eq_ok.mp edits
  cases edits
  obtain ⟨committed, commits, ran⟩ := bind_eq_ok.mp ran
  obtain ⟨store, -, ran⟩ := bind_eq_ok.mp ran
  cases ran
  refine ⟨delta, edit, ?_⟩
  unfold commitRevision at commits
  split at commits
  · obtain ⟨repo, -, commits⟩ := bind_eq_ok.mp commits
    cases commits
    rfl
  · cases commits
    rfl

/-! ## Copies -/

variable {condition : DeBaton → Edit → Texts → TracedRepo sys → Prop} {history : TextHistory}
  {st opened st' : DumpState sys} {log : LogRevision}

/-- The copies are where the program looks for them, and each file has one. -/
structure Copied (history : TextHistory) (delta : DeltaState sys) : Prop where
  named : Named delta
  stores : Stores delta history.copies
  agree : Agree history.texts history.copies

theorem Copied.of_eq {delta delta' : DeltaState sys} (copied : Copied history delta) (files : delta'.files = delta.files)
    (hash : delta'.deltaHash = delta.deltaHash) : Copied history delta' :=
  ⟨copied.named.of_eq files hash, copied.stores.of_eq files hash, copied.agree⟩

theorem copied_setup (loaded : Int → Texts) (ready : dumpSetup server session opts = .ok st) :
    Copied (.start loaded) st.delta := by
  have start := dumpSetup_delta ready
  have files : st.delta.files = (emptyDelta : DeltaState sys).files := by rw [start]
  have hash : st.delta.deltaHash = (emptyDelta : DeltaState sys).deltaHash := by rw [start]
  refine Copied.of_eq ⟨⟨?_, ?_, fun _ _ => rfl⟩, ⟨fun _ => rfl, ?_⟩, fun _ _ found => found⟩ files hash
  · intro path name found
    cases found
  · intro path path' name found
    cases found
  · intro path name found
    cases found

theorem Copied.ready (copied : Copied history st.delta) (opens : openRevision server st = .ok (log, opened)) :
    Copied history opened.delta := by
  have start := openRevision_delta opens
  exact copied.of_eq (by rw [start]) (by rw [start])

/-- Any two states are related. -/
theorem relates_any (baton : DeBaton) (t : TracedRepo sys) (edition : Edition) : Relates baton t edition fun _ _ => True where
  trans _ _ := trivial
  repo _ := trivial
  unlink _ _ := trivial
  dumped _ _ _ _ := trivial
  deleted _ _ _ := trivial

/-- A round keeps the copies. -/
theorem Copied.round (copied : Copied history st.delta)
    (round : TextRound condition server session history st log opened st') :
    Copied (history.next (editorBaton session opened log) (roundEdit server log opened) st'.delta.out) st'.delta := by
  have ready := copied.ready round.opens
  obtain ⟨delta, edit, same⟩ := dumpStep_edit round.opens round.ran
  obtain ⟨-, named, stores, agree⟩ := runEdit_relates ready.named ready.stores ready.agree round.promised
    (relates_any _ _ _) edit
  have kept : Copied (history.next (editorBaton session opened log) (roundEdit server log opened) st'.delta.out) delta :=
    ⟨named, stores, agree⟩
  exact kept.of_eq (by rw [same]) (by rw [same])

theorem TextRun.copied (run : TextRun condition server session opts history st) : Copied history st.delta := by
  induction run with
  | setup loaded ready => exact copied_setup loaded ready
  | round _ round ih => exact ih.round round

/-- Nothing is logged as deleted. -/
theorem promised_of_quiet {baton : DeBaton} {texts : Texts} {edit : Edit} {revision : Int} {changes : List ((_ : CString) × ChangedPath)}
    (log : baton.logRevision = plainLog revision changes) (quiet : ∀ entry ∈ changes, entry.2.action ≠ .delete)
    (sound : edit.children.Sound texts []) : Promised baton edit texts := by
  refine ⟨sound, fun path deletes => ?_⟩
  obtain ⟨table, info, changed, found, deleted⟩ := deletes
  rw [log] at changed
  cases changed
  rw [AList.lookup_to_alist] at found
  exact absurd deleted (quiet _ (List.of_mem_dlookup found))

theorem promised_empty {baton : DeBaton} {edit : Edit} {texts : Texts} {revision : Int}
    (log : baton.logRevision = plainLog revision []) (calls : edit.children = .done) : Promised baton edit texts := by
  refine promised_of_quiet log (by simp) ?_
  rw [calls]
  trivial

theorem promised_added {baton : DeBaton} {edit : Edit} {texts : Texts} {revision : Int} {path : CString} {content : Bytes}
    {copyfrom : Option (CString × Int)} (log : baton.logRevision = plainLog revision [⟨path, .add, copyfrom⟩])
    (calls : edit.children = .addFile path [] (some fun _ => content) .done) : Promised baton edit texts := by
  refine promised_of_quiet log (by simp) ?_
  rw [calls]
  exact ⟨List.not_mem_nil, ⟨_, rfl, fun _ => rfl⟩, trivial⟩

end Rsvndump
