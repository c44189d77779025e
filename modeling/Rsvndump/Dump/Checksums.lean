import Rsvndump.Dump.TextRuns

/-! Copied files over whole dumps.

A copy names a revision, while the checksum it is compared with is that of the
text its source was last recorded with.
-/

set_option autoImplicit false

namespace Rsvndump

open Library

variable {sys : Platform} {server : Server} {session : Session} {opts : DumpOptions}
  {condition : DeBaton → Edit → Texts → TracedRepo sys → Prop} {history : TextHistory}
  {st opened st' : DumpState sys} {log : LogRevision}

theorem checksums_setup (loaded : Int → Texts) (ready : dumpSetup server session opts = .ok st) :
    Checksums (TextHistory.start loaded).recorded st.delta := by
  have hash : st.delta.md5Hash = ∅ := by
    rw [dumpSetup_delta ready]
    rfl
  intro path text
  rw [hash, AList.lookup_empty]
  simp [TextHistory.start]

/-- The copies of a round are compared with the texts recorded before. -/
theorem Checksums.round (free : CollisionFree sys.md5) (copied : Copied history st.delta)
    (sums : Checksums history.recorded st.delta) (round : TextRound condition server session history st log opened st') :
    AllCompared (editorBaton session opened log) ((roundEdit server log opened).children.texts history.texts)
        ((roundEdit server log opened).children.leaves history.recorded) st'.delta.out ∧
      Checksums (history.next (editorBaton session opened log) (roundEdit server log opened) st'.delta.out).recorded
        st'.delta := by
  have ready := copied.ready round.opens
  have hash : opened.delta.md5Hash = st.delta.md5Hash := by rw [openRevision_delta round.opens]
  obtain ⟨delta, edit, same⟩ := dumpStep_edit round.opens round.ran
  obtain ⟨all, kept⟩ := runEdit_compared free ready.named ready.stores ready.agree round.promised (sums.of_eq hash) edit
  have out : st'.delta.out = delta.out := by rw [same]
  have hash' : st'.delta.md5Hash = delta.md5Hash := by rw [same]
  rw [out]
  exact ⟨all, kept.of_eq hash'⟩

theorem TextRun.checksums (free : CollisionFree sys.md5) (run : TextRun condition server session opts history st) :
    Checksums history.recorded st.delta := by
  induction run with
  | setup loaded ready => exact checksums_setup loaded ready
  | round run round ih => exact (ih.round free run.copied round).2

/-- What a copy gives to a loader: if its record has no text, the source has the text of the new
file in the revision that is named. -/
def ClonesText (baton : DeBaton) (loaded : Int → Texts) (after : Texts) (record : NodeRecord) : Prop :=
  record.kind = some .file → record.action = .add → ∀ source revision, record.copyfrom = some (source, revision) →
    record.text = none → ∃ path, record.path = printedPath baton path ∧ (after path).isSome ∧
      (loaded revision).printed baton source = after path

/-- The text last recorded for the source of a copy is another than that of the new file, or the one
the source has in the revision that is named. -/
def SourceUnchanged (baton : DeBaton) (loaded : Int → Texts) (after recorded : Texts) (record : NodeRecord) : Prop :=
  record.kind = some .file → record.action = .add → ∀ source revision, record.copyfrom = some (source, revision) →
    ∀ path, record.path = printedPath baton path → recorded.printed baton source = after path →
      (loaded revision).printed baton source = recorded.printed baton source

/-- In every dump, a copied file gets its text if and only if the text that was last recorded for
its source does not stand for another one. -/
theorem copied_text_iff (free : CollisionFree sys.md5) (run : TextRun condition server session opts history st)
    (round : TextRound condition server session history st log opened st') {earlier later : List NodeRecord}
    {record : NodeRecord} (split : st'.delta.out = earlier ++ record :: later) :
    ClonesText (editorBaton session opened log) history.loaded
        ((roundEdit server log opened).children.texts history.texts) record ↔
      SourceUnchanged (editorBaton session opened log) history.loaded
        ((roundEdit server log opened).children.texts history.texts)
        (recordTexts (editorBaton session opened log) ((roundEdit server log opened).children.texts history.texts)
          ((roundEdit server log opened).children.leaves history.recorded) earlier) record := by
  have all := ((run.checksums free).round free run.copied round).1
  rw [split, allCompared_append] at all
  obtain ⟨-, compared, -⟩ := all
  constructor
  · intro clones file added source revision copied path printed same
    obtain ⟨path', printed', -, silent⟩ := compared file added source revision copied
    cases printedPath_inj.mp (printed.symm.trans printed')
    obtain ⟨path', printed', -, source'⟩ := clones file added source revision copied (silent.mpr same)
    cases printedPath_inj.mp (printed.symm.trans printed')
    exact source'.trans same.symm
  · intro unchanged file added source revision copied silent
    obtain ⟨path, printed, there, compared⟩ := compared file added source revision copied
    have same := compared.mp silent
    exact ⟨path, printed, there, (unchanged file added source revision copied path printed same).trans same⟩

/-! A file that is copied after its source, or after the source was changed to the new text. -/

/-- Checksums that are told from the zero digest by their first byte. -/
def taggedSums : Platform := { Platform.plain with md5 := fun text => 1 :: text }

theorem taggedSums_free : CollisionFree taggedSums.md5 where
  injective _ _ same := List.tail_eq_of_cons_eq same
  nonzero _ zero := absurd (List.head_eq_of_cons_eq zero) (by decide)

def copiedServer (modified : Bool) : Server := historyServer
  [plainLog 0 [], plainLog 1 [⟨cstr "p", .add, none⟩],
    plainLog 2 [if modified then ⟨cstr "p", .modify, none⟩ else ⟨cstr "o", .add, none⟩],
    plainLog 3 [⟨cstr "q", .add, some (cstr "p", 1)⟩]]
  fun _ dest _ =>
    if dest = 1 then .addFile (cstr "p") [] (some fun _ => [120]) .done
    else if dest = 2 then
      if modified then .openFile (cstr "p") [] (some fun source => source ++ [121]) .done
      else .addFile (cstr "o") [] (some fun _ => [122]) .done
    else if dest = 3 then .addFile (cstr "q") [] (some fun _ => if modified then [120, 121] else [120]) .done
    else .done

/-- The state in which the copy is dumped; its record is the only one. -/
theorem copiedServer_round (modified : Bool) :
    ∃ (history : TextHistory) (log : LogRevision) (st opened st' : DumpState taggedSums) (record : NodeRecord),
      TextRun (fun _ _ _ _ => True) (copiedServer modified) rootSession DumpOptions.create history st ∧
      TextRound (fun _ _ _ _ => True) (copiedServer modified) rootSession history st log opened st' ∧
      st'.delta.out = [record] ∧ record.path = cstr "q" ∧ record.kind = some .file ∧ record.action = .add ∧
      record.copyfrom = some (cstr "p", 1) ∧ record.text = none ∧ history.loaded 1 (cstr "p") = some [120] ∧
      (roundEdit (copiedServer modified) log opened).children.texts history.texts (cstr "q") =
        some (if modified then [120, 121] else [120]) ∧
      ∀ path, printedPath (editorBaton rootSession opened log) path = path := by
  cases modified with
  | false =>
    refine ⟨_, _, _, _, _, _, .round (.round (.round (.setup (fun _ _ => none) rfl) ⟨rfl, ?_, trivial, rfl⟩)
      ⟨rfl, ?_, trivial, rfl⟩) ⟨rfl, ?_, trivial, rfl⟩, ⟨rfl, ?_, trivial, rfl⟩, rfl, rfl, rfl, rfl, rfl, rfl, rfl, rfl,
      fun _ => rfl⟩
    · exact promised_empty (show _ = plainLog 0 [] from rfl) rfl
    · exact promised_added (show _ = plainLog 1 [⟨cstr "p", .add, none⟩] from rfl) rfl
    · exact promised_added (show _ = plainLog 2 [⟨cstr "o", .add, none⟩] from rfl) rfl
    · exact promised_added (show _ = plainLog 3 [⟨cstr "q", .add, some (cstr "p", 1)⟩] from rfl) rfl
  | true =>
    refine ⟨_, _, _, _, _, _, .round (.round (.round (.setup (fun _ _ => none) rfl) ⟨rfl, ?_, trivial, rfl⟩)
      ⟨rfl, ?_, trivial, rfl⟩) ⟨rfl, ?_, trivial, rfl⟩, ⟨rfl, ?_, trivial, rfl⟩, rfl, rfl, rfl, rfl, rfl, rfl, rfl, rfl,
      fun _ => rfl⟩
    · exact promised_empty (show _ = plainLog 0 [] from rfl) rfl
    · exact promised_added (show _ = plainLog 1 [⟨cstr "p", .add, none⟩] from rfl) rfl
    · refine promised_of_quiet (show _ = plainLog 2 [⟨cstr "p", .modify, none⟩] from rfl) (by simp) ?_
      exact ⟨List.not_mem_nil, rfl, trivial⟩
    · exact promised_added (show _ = plainLog 3 [⟨cstr "q", .add, some (cstr "p", 1)⟩] from rfl) rfl

/-- The copy of a revision in which the source had another text than it has now. -/
theorem copied_text_stale :
    CollisionFree taggedSums.md5 ∧ ∃ (history : TextHistory) (log : LogRevision) (st opened st' : DumpState taggedSums),
      TextRun (fun _ _ _ _ => True) (copiedServer true) rootSession DumpOptions.create history st ∧
      TextRound (fun _ _ _ _ => True) (copiedServer true) rootSession history st log opened st' ∧
      ∃ record ∈ st'.delta.out, ¬ ClonesText (editorBaton rootSession opened log) history.loaded
        ((roundEdit (copiedServer true) log opened).children.texts history.texts) record := by
  obtain ⟨history, log, st, opened, st', record, run, round, out, path, kind, action, copyfrom, text, source, target,
    unprefixed⟩ := copiedServer_round true
  refine ⟨taggedSums_free, history, log, st, opened, st', run, round, record, by rw [out]; exact List.mem_singleton_self _, ?_⟩
  intro clones
  obtain ⟨path', printed, -, same⟩ := clones kind action _ _ copyfrom text
  rw [path, unprefixed] at printed
  rw [← printed, target, ← unprefixed (cstr "p"), Texts.printed_apply, source] at same
  cases same

/-- The copy of a file whose text did not change. -/
theorem copied_text_iff_unmodified :
    ∃ (history : TextHistory) (log : LogRevision) (st opened st' : DumpState taggedSums) (record : NodeRecord),
      TextRun (fun _ _ _ _ => True) (copiedServer false) rootSession DumpOptions.create history st ∧
      TextRound (fun _ _ _ _ => True) (copiedServer false) rootSession history st log opened st' ∧
      st'.delta.out = [record] ∧ record.copyfrom = some (cstr "p", 1) ∧ record.text = none ∧
      ClonesText (editorBaton rootSession opened log) history.loaded
        ((roundEdit (copiedServer false) log opened).children.texts history.texts) record := by
  obtain ⟨history, log, st, opened, st', record, run, round, out, path, kind, action, copyfrom, text, source, target,
    unprefixed⟩ := copiedServer_round false
  refine ⟨history, log, st, opened, st', record, run, round, out, copyfrom, text, ?_⟩
  refine (copied_text_iff taggedSums_free run round (show st'.delta.out = [] ++ record :: [] from out)).mpr ?_
  intro _ _ source' revision copied path' printed same
  cases Option.some.inj (copyfrom.symm.trans copied)
  rw [path, unprefixed] at printed
  rw [same, ← printed, target, ← unprefixed (cstr "p"), Texts.printed_apply, source]
  rfl

end Rsvndump
