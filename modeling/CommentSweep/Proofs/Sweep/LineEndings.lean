import CommentSweep.ControlDocument.Phase
import CommentSweep.Proofs.Sweep.Rewriting

/-!
# Line endings make no difference

A carriage return before every line feed changes only the endings of the lines, and what is written
for a line has its ending.
-/

namespace CommentSweep

/-- The text with a carriage return put before every line feed. -/
def withReturns (text : Text) : Text := text.flatMap fun c => if c = '\n' then ['\r', '\n'] else [c]

/-- The ending with a carriage return before its line feed. -/
def Ending.withReturn : Ending → Ending
  | .none => .none
  | .lf => .crlf
  | .crlf => .crlf

/-- The line with a carriage return before its line feed. -/
def Line.withReturn (line : Line) : Line := { line with ending := line.ending.withReturn }

/-- The surveyed line with a carriage return before its line feed. -/
def SurveyedLine.withReturn (line : SurveyedLine) : SurveyedLine :=
  { line with line := line.line.withReturn }

section Endings

theorem Ending.withReturn_ne_lf (ending : Ending) : ending.withReturn ≠ .lf := by
  cases ending <;> exact nofun

theorem Ending.withReturn_eq_none_iff {ending : Ending} :
    ending.withReturn = .none ↔ ending = .none := by
  cases ending <;> simp [withReturn]

theorem Ending.text_eq_nil_iff {ending : Ending} : ending.text = [] ↔ ending = .none := by
  cases ending <;> simp [text]

theorem Line.Cut.withReturn {line : Line} (h : line.Cut) : line.withReturn.Cut where
  feed_notMem := h.feed_notMem
  no_return he := absurd he line.ending.withReturn_ne_lf
  raw_ne_nil hnil := by
    obtain ⟨hbody, hending⟩ := List.append_eq_nil_iff.mp hnil
    rw [Ending.text_eq_nil_iff] at hending
    replace hending : line.ending = .none := Ending.withReturn_eq_none_iff.mp hending
    exact h.raw_ne_nil (List.append_eq_nil_iff.mpr ⟨hbody, Ending.text_eq_nil_iff.mpr hending⟩)

/-- The lines of a text are those of a text with their carriage returns as well. -/
theorem AreLines.map_withReturn {ls : List Line} (h : AreLines ls) :
    AreLines (ls.map Line.withReturn) where
  cut new hn := by
    obtain ⟨line, hl, rfl⟩ := List.mem_map.mp hn
    exact (h.cut line hl).withReturn
  ended := List.pairwise_map.mpr (h.ended.imp fun he => mt Ending.withReturn_eq_none_iff.mp he)

end Endings

section Texts

theorem withReturns_append (before after : Text) :
    withReturns (before ++ after) = withReturns before ++ withReturns after := List.flatMap_append

theorem withReturns_flatMap {α : Type} (items : List α) (write : α → Text) :
    withReturns (items.flatMap write) = items.flatMap fun item => withReturns (write item) :=
  List.flatMap_assoc

variable {text : Text}

theorem withReturns_eq_self (h : '\n' ∉ text) : withReturns text = text := by
  have hsame : ∀ c ∈ text, (if c = '\n' then ['\r', '\n'] else [c]) = [c] := by
    intro c hc
    refine if_neg ?_
    rintro rfl
    exact h hc
  rw [withReturns, List.flatMap_congr hsame, List.flatMap_singleton']

theorem withReturns_append_ending (h : '\n' ∉ text) {ending : Ending} (he : ending ≠ .crlf) :
    withReturns (text ++ ending.text) = text ++ ending.withReturn.text := by
  have hending : withReturns ending.text = ending.withReturn.text := by
    cases ending with
    | none => rfl
    | lf => rfl
    | crlf => exact absurd rfl he
  rw [withReturns_append, withReturns_eq_self h, hending]

theorem ending_ne_crlf (h : '\r' ∉ text) {line : Line} (hl : line ∈ lines text) :
    line.ending ≠ .crlf := by
  intro he
  refine h ?_
  rw [← flatMap_raw_lines text]
  refine List.mem_flatMap.mpr ⟨line, hl, List.mem_append_right _ ?_⟩
  rw [he]
  exact List.mem_cons_self

/-- The lines keep their bodies, and each line feed has a carriage return before it. -/
theorem lines_withReturns (h : '\r' ∉ text) :
    lines (withReturns text) = (lines text).map Line.withReturn := by
  have hlines := areLines_lines text
  have hraw : ∀ line ∈ lines text, withReturns line.raw = line.withReturn.raw := fun line hl =>
    withReturns_append_ending (hlines.cut line hl).feed_notMem (ending_ne_crlf h hl)
  rw [← hlines.map_withReturn.lines_flatMap_raw, List.flatMap_map, ← List.flatMap_congr hraw]
  rw [← withReturns_flatMap, flatMap_raw_lines]

end Texts

section Sweeping

/-- Lines are surveyed without their endings. -/
theorem surveyedFrom_map_withReturn (start : Region) (ls : List Line) :
    surveyedFrom start (ls.map Line.withReturn) =
      (surveyedFrom start ls).map SurveyedLine.withReturn := by
  induction ls generalizing start with
  | nil => rfl
  | cons line rest ih =>
    rw [List.map_cons, surveyedFrom_cons, surveyedFrom_cons, List.map_cons, ih]
    rfl

theorem verdicts_map_withReturn (entries : List Text) (previous : Verdict)
    (ls : List SurveyedLine) :
    verdicts entries previous (ls.map SurveyedLine.withReturn) = verdicts entries previous ls :=
  verdicts_map SurveyedLine.withReturn (fun _ _ _ => rfl) entries previous ls

variable {content : Text}

/-- The lines of a text without carriage returns, surveyed with and without them. -/
theorem surveyedLines_withReturns (h : '\r' ∉ content) :
    surveyedLines (withReturns content) =
      (surveyedLines content).map SurveyedLine.withReturn := by
  rw [surveyedLines_eq, surveyedLines_eq, lines_withReturns h, surveyedFrom_map_withReturn]

/-- What is written for a line has the ending of the line. -/
theorem written_withReturn (h : '\r' ∉ content) {line : SurveyedLine}
    (hl : line ∈ surveyedLines content) (verdict : Verdict) :
    line.withReturn.written verdict = withReturns (line.written verdict) := by
  obtain ⟨hm, region, hs⟩ := exists_survey_of_mem hl
  have hfeed := ((areLines_lines content).cut _ hm).feed_notMem
  have hending := ending_ne_crlf h hm
  cases verdict with
  | kept => exact (withReturns_append_ending hfeed hending).symm
  | removed =>
    change (if allBlank line.survey.code then [] else _) = withReturns (if _ then [] else _)
    split
    · rfl
    · refine (withReturns_append_ending (fun hc => hfeed ?_) hending).symm
      have hcode := (trimEnd_isPrefix line.survey.code).subset hc
      rw [hs] at hcode
      exact (trimEnd_isPrefix line.line.body).subset (mem_of_mem_code hcode)

/-- The same lines are captured with and without carriage returns. -/
theorem capturedLines_withReturns (h : '\r' ∉ content) :
    capturedLines (withReturns content) = capturedLines content := by
  rw [capturedLines, surveyedLines_withReturns h, List.filter_map, List.map_map]
  rfl

/-- The same entries are found, and the swept text has the endings that the lines had. -/
theorem sweepText_withReturns (h : '\r' ∉ content) (entries : List Text) :
    sweepText (withReturns content) entries =
      { sweepText content entries with
        content := withReturns (sweepText content entries).content } := by
  have hverdicts : verdicts entries .kept (surveyedLines (withReturns content)) =
      verdicts entries .kept (surveyedLines content) := by
    rw [surveyedLines_withReturns h, verdicts_map_withReturn]
  have hcontent : (sweepText (withReturns content) entries).content =
      withReturns (sweepText content entries).content := by
    rw [content_sweepText, content_sweepText, withReturns_flatMap, judgedLines, judgedLines,
      hverdicts, surveyedLines_withReturns h, List.zip_map_left, List.flatMap_map]
    refine List.flatMap_congr fun judged hj => ?_
    exact written_withReturn h (List.of_mem_zip hj).1 judged.2
  rw [← hcontent]
  simp only [sweepText, hverdicts]

end Sweeping

/-- A control document is read as the same blocks with and without carriage returns. -/
theorem parseDocument_withReturns {document : Text} (h : '\r' ∉ document) :
    parseDocument (withReturns document) = parseDocument document := by
  rw [parseDocument, parseDocument, documentEvents, documentEvents, lines_withReturns h,
    List.map_map]
  rfl

/-- With a carriage return before every line feed the same lines are captured, the same entries are
found and the same blocks are read, and the swept text has its endings changed. -/
theorem withReturns_irrelevant {content document : Text} (hcontent : '\r' ∉ content)
    (hdocument : '\r' ∉ document) (entries : List Text) :
    capturedLines (withReturns content) = capturedLines content ∧
      (sweepText (withReturns content) entries).matched = (sweepText content entries).matched ∧
        (sweepText (withReturns content) entries).unmatched =
          (sweepText content entries).unmatched ∧
            (sweepText (withReturns content) entries).content =
              withReturns (sweepText content entries).content ∧
                parseDocument (withReturns document) = parseDocument document := by
  rw [sweepText_withReturns hcontent]
  exact ⟨capturedLines_withReturns hcontent, rfl, rfl, rfl, parseDocument_withReturns hdocument⟩

/-- What is left of a removed line, a kept blank line and a last line without an ending. -/
theorem withReturns_irrelevant_remnant :
    let content : Text := "int a; // one\n\nint b;".toList
    let document : Text := "# a.c\nint a; // one\n\n# b.c\n".toList
    let entries : List Text := ["int a; // one".toList]
    '\r' ∉ content ∧ '\r' ∉ document ∧
      capturedLines (withReturns content) = entries ∧
        (sweepText (withReturns content) entries).matched = 1 ∧
          (sweepText (withReturns content) entries).content = "int a;\r\n\r\nint b;".toList ∧
            parseDocument (withReturns document) =
              [⟨"a.c".toList, entries⟩, ⟨"b.c".toList, []⟩] := by
  intro content document entries
  have hcontent : '\r' ∉ content := by decide
  have hdocument : '\r' ∉ document := by decide
  obtain ⟨hcaptured, hmatched, -, hswept, hparsed⟩ :=
    withReturns_irrelevant hcontent hdocument entries
  refine ⟨hcontent, hdocument, ?_, ?_, ?_, ?_⟩
  · rw [hcaptured]
    decide +kernel
  · rw [hmatched]
    decide +kernel
  · rw [hswept]
    decide +kernel
  · rw [hparsed]
    decide +kernel

end CommentSweep
