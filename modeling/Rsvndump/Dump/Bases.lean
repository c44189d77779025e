import Rsvndump.Delta.Bases
import Rsvndump.Dump.TextRuns

/-! Text deltas over whole dumps.

The repository's texts and the local copies part where a file goes away without
its copy. A delta from a copy that is left is of no use to a loader.
-/

set_option autoImplicit false

namespace Rsvndump

open Library

variable {sys : Platform} {server : Server} {session : Session} {opts : DumpOptions} {history : TextHistory}
  {st opened st' : DumpState sys} {log : LogRevision} {apply : Bytes → Bytes → Bytes}

/-- In a dump that keeps its bases, each delta gives the text of its file when it is applied to the
text a loader has. -/
theorem text_deltas_based (laws : DeltaLaws sys apply) (run : TextRun BasesKept server session opts history st)
    (round : TextRound BasesKept server session history st log opened st') :
    ∀ record ∈ st'.delta.out, Based apply (editorBaton session opened log)
      (fun revision => (history.loaded revision).printed (editorBaton session opened log)) history.texts
      ((roundEdit server log opened).children.texts history.texts) record := by
  have ready := run.copied.ready round.opens
  obtain ⟨delta, edit, same⟩ := dumpStep_edit round.opens round.ran
  have out : st'.delta.out = delta.out := by rw [same]
  rw [out]
  exact (runEdit_based laws ready.named ready.stores ready.agree round.promised round.condition edit).1

/-! A path that is a file, then a directory and then a file again. -/

/-- Deltas that tell whether their source was empty. -/
def markedDeltas : Platform :=
  { Platform.plain with svndiff := fun source target => if source = [] then 0 :: target else 1 :: target }

def applyMarked : Bytes → Bytes → Bytes
  | 0 :: target, _ => target
  | _ :: target, source => if source = [] then [] else target
  | [], _ => []

theorem markedDeltas_laws : DeltaLaws markedDeltas applyMarked := by
  refine ⟨fun source target => ?_, fun target base => rfl⟩
  by_cases empty : source = []
  · simp [markedDeltas, empty, applyMarked]
  · simp [markedDeltas, empty, applyMarked]

def kindServer : Server := historyServer
  [plainLog 0 [], plainLog 1 [⟨cstr "p", .add, none⟩], plainLog 2 [⟨cstr "p", .replace, none⟩],
    plainLog 3 [⟨cstr "p", .replace, none⟩]]
  fun _ dest _ =>
    if dest = 1 then .addFile (cstr "p") [] (some fun _ => [120]) .done
    else if dest = 2 then .deleteEntry (cstr "p") (.addDirectory (cstr "p") [] .done .done)
    else if dest = 3 then .deleteEntry (cstr "p") (.addFile (cstr "p") [] (some fun _ => [121]) .done)
    else .done

def withDeltas : DumpOptions := { DumpOptions.create with useDeltas := true }

/-- The copy of the first file is the source of the delta for the second, which is added. -/
theorem text_delta_stale :
    DeltaLaws markedDeltas applyMarked ∧ ∃ (history : TextHistory) (log : LogRevision)
      (st opened st' : DumpState markedDeltas),
      TextRun (fun _ _ _ _ => True) kindServer rootSession withDeltas history st ∧
      TextRound (fun _ _ _ _ => True) kindServer rootSession history st log opened st' ∧
      ∃ record ∈ st'.delta.out, ¬ Based applyMarked (editorBaton rootSession opened log)
        (fun revision => (history.loaded revision).printed (editorBaton rootSession opened log)) history.texts
        ((roundEdit kindServer log opened).children.texts history.texts) record := by
  refine ⟨markedDeltas_laws, _, _, _, _, _, .round (.round (.round (.setup (fun _ _ => none) rfl) ⟨rfl, ?_, trivial, rfl⟩)
    ⟨rfl, ?_, trivial, rfl⟩) ⟨rfl, ?_, trivial, rfl⟩, ⟨rfl, ?_, trivial, rfl⟩, ?_⟩
  · exact promised_empty (show _ = plainLog 0 [] from rfl) rfl
  · exact promised_added (show _ = plainLog 1 [⟨cstr "p", .add, none⟩] from rfl) rfl
  · refine promised_of_quiet (show _ = plainLog 2 [⟨cstr "p", .replace, none⟩] from rfl) (by simp) ?_
    exact ⟨by simp, trivial, trivial, trivial⟩
  · refine promised_of_quiet (show _ = plainLog 3 [⟨cstr "p", .replace, none⟩] from rfl) (by simp) ?_
    exact ⟨by simp, List.not_mem_nil, ⟨_, rfl, fun _ => rfl⟩, trivial⟩
  · refine ⟨_, List.mem_of_getLast? rfl, fun based => ?_⟩
    obtain ⟨path, text, printed, written, result⟩ := based _ rfl rfl
    have here : cstr "p" = path := printed
    subst here
    cases written
    have wrong : some ([121] : Bytes) = some [] := result
    cases wrong

def openServer : Server := historyServer
  [plainLog 0 [], plainLog 1 [⟨cstr "p", .add, none⟩], plainLog 2 [⟨cstr "p", .modify, none⟩]]
  fun _ dest _ =>
    if dest = 1 then .addFile (cstr "p") [] (some fun _ => [120]) .done
    else if dest = 2 then .openFile (cstr "p") [] (some fun source => source ++ [121]) .done
    else .done

/-- The delta of a file that is added and then modified. -/
theorem text_deltas_based_modified :
    ∃ (history : TextHistory) (log : LogRevision) (st opened st' : DumpState markedDeltas),
      TextRun BasesKept openServer rootSession withDeltas history st ∧
      TextRound BasesKept openServer rootSession history st log opened st' ∧
      (st'.delta.out.map fun record => (record.action, record.body.map NodeBody.text)) =
        [(.modify, some (some [1, 120, 121]))] ∧
      ∀ record ∈ st'.delta.out, Based applyMarked (editorBaton rootSession opened log)
        (fun revision => (history.loaded revision).printed (editorBaton rootSession opened log)) history.texts
        ((roundEdit openServer log opened).children.texts history.texts) record := by
  have trusted : ∀ (opened : DumpState markedDeltas) (log : LogRevision) (files : List CString) (t : TracedRepo markedDeltas),
      opened.opts.start = 0 → Known (editorBaton rootSession opened log) files t :=
    fun opened log files t start untrusted => absurd ⟨rfl, .inl start⟩ untrusted
  have reached : ∃ (history : TextHistory) (log : LogRevision) (st opened st' : DumpState markedDeltas),
      TextRun BasesKept openServer rootSession withDeltas history st ∧
      TextRound BasesKept openServer rootSession history st log opened st' ∧
      (st'.delta.out.map fun record => (record.action, record.body.map NodeBody.text)) =
        [(.modify, some (some [1, 120, 121]))] := by
    refine ⟨_, _, _, _, _, .round (.round (.setup (fun _ _ => none) rfl) ⟨rfl, ?_, ⟨trivial, trusted _ _ _ _ rfl⟩, rfl⟩)
      ⟨rfl, ?_, ⟨⟨rfl, trivial⟩, trusted _ _ _ _ rfl⟩, rfl⟩, ⟨rfl, ?_, ⟨trivial, trusted _ _ _ _ rfl⟩, rfl⟩, by decide⟩
    · exact promised_empty (show _ = plainLog 0 [] from rfl) rfl
    · exact promised_added (show _ = plainLog 1 [⟨cstr "p", .add, none⟩] from rfl) rfl
    · refine promised_of_quiet (show _ = plainLog 2 [⟨cstr "p", .modify, none⟩] from rfl) (by simp) ?_
      exact ⟨List.not_mem_nil, rfl, trivial⟩
  obtain ⟨history, log, st, opened, st', run, round, out⟩ := reached
  exact ⟨history, log, st, opened, st', run, round, out, text_deltas_based markedDeltas_laws run round⟩

end Rsvndump
