import CommentSweep.Sweep.Content
import CommentSweep.Proofs.Comment.Remnant
import CommentSweep.Proofs.Sweep.Judging
import CommentSweep.Proofs.Text.Trimming

/-!
# The lines of a swept text

Surveying a swept text gives each kept line its old survey if the region is code wherever a kept and
a removed line are neighbours. What is left of removed lines is code.
-/

namespace CommentSweep

/-- Lines of which the first begins in the given region, each with the survey of its trimmed text. -/
def surveyedFrom (start : Region) (ls : List Line) : List SurveyedLine :=
  List.zipWith SurveyedLine.mk ls (surveys start (ls.map fun line => trimEnd line.body))

@[simp] theorem surveyedFrom_nil (start : Region) : surveyedFrom start [] = [] := rfl

@[simp] theorem surveyedFrom_cons (start : Region) (line : Line) (rest : List Line) :
    surveyedFrom start (line :: rest) =
      ⟨line, survey start (trimEnd line.body)⟩ ::
        surveyedFrom (survey start (trimEnd line.body)).after rest := rfl

theorem surveyedLines_eq (content : Text) :
    surveyedLines content = surveyedFrom .code (lines content) := rfl

@[simp] theorem map_line_surveyedFrom (start : Region) (ls : List Line) :
    (surveyedFrom start ls).map SurveyedLine.line = ls := by
  induction ls generalizing start with
  | nil => rfl
  | cons line rest ih => rw [surveyedFrom_cons, List.map_cons, ih]

theorem flatMap_raw_surveyedLines (content : Text) :
    ((surveyedLines content).flatMap fun line => line.line.raw) = content := by
  have hlines := map_line_surveyedFrom .code (lines content)
  rw [← surveyedLines_eq] at hlines
  conv_rhs => rw [← flatMap_raw_lines content, ← hlines, List.flatMap_map]

theorem exists_survey_of_mem {start : Region} {ls : List Line} {line : SurveyedLine}
    (h : line ∈ surveyedFrom start ls) :
    line.line ∈ ls ∧ ∃ region, line.survey = survey region line.text := by
  induction ls generalizing start with
  | nil => simp at h
  | cons first rest ih =>
    rw [surveyedFrom_cons, List.mem_cons] at h
    rcases h with rfl | h
    · exact ⟨List.mem_cons_self, start, rfl⟩
    · obtain ⟨hm, hs⟩ := ih h
      exact ⟨List.mem_cons_of_mem _ hm, hs⟩

/-- Every line of a file has the survey of its trimmed text in some region. -/
theorem cut_of_mem_surveyedLines {content : Text} {line : SurveyedLine}
    (h : line ∈ surveyedLines content) :
    line.line.Cut ∧ ∃ region, line.survey = survey region line.text := by
  obtain ⟨hm, hs⟩ := exists_survey_of_mem (surveyedLines_eq content ▸ h)
  exact ⟨(areLines_lines content).cut _ hm, hs⟩

/-- Every line begins in the region that the line before it ends in. -/
theorem isChain_surveyedFrom (start : Region) (ls : List Line) :
    (surveyedFrom start ls).IsChain fun earlier later =>
      (∃ region, earlier.survey = survey region earlier.text) ∧
        later.survey = survey earlier.survey.after later.text := by
  induction ls generalizing start with
  | nil => exact List.isChain_nil
  | cons line rest ih =>
    rw [surveyedFrom_cons]
    refine List.isChain_cons.mpr ⟨fun later hl => ⟨⟨start, rfl⟩, ?_⟩, ih _⟩
    cases rest with
    | nil => exact absurd hl nofun
    | cons next rest =>
      obtain rfl := Option.some.inj hl
      rfl

namespace SurveyedLine

/-- The line that stands in the place of a line under a verdict, if one is written. -/
def rewritten? (line : SurveyedLine) : Verdict → Option Line
  | .kept => some line.line
  | .removed =>
    if allBlank line.survey.code then none
    else some ⟨trimEnd line.survey.code, line.line.ending⟩

/-- What is written for a line is the line in its place, or nothing. -/
theorem flatMap_raw_rewritten? (line : SurveyedLine) (verdict : Verdict) :
    (line.rewritten? verdict).toList.flatMap Line.raw = line.written verdict := by
  cases verdict with
  | kept => simp [rewritten?, written]
  | removed =>
    simp only [rewritten?, written, stripped]
    split <;> simp [Line.raw]

theorem ending_of_rewritten? {line : SurveyedLine} {verdict : Verdict} {new : Line}
    (h : line.rewritten? verdict = some new) : new.ending = line.line.ending := by
  cases verdict with
  | kept =>
    obtain rfl := Option.some.inj h
    rfl
  | removed =>
    rw [rewritten?, Option.ite_none_left_eq_some] at h
    rw [← Option.some.inj h.2]

/-- The line in the place of one that was cut out of a text can be cut out of a text. -/
theorem cut_of_rewritten? {line : SurveyedLine} {region : Region} {verdict : Verdict} {new : Line}
    (hl : line.line.Cut) (hs : line.survey = CommentSweep.survey region line.text)
    (h : line.rewritten? verdict = some new) : new.Cut := by
  cases verdict with
  | kept =>
    obtain rfl := Option.some.inj h
    exact hl
  | removed =>
    rw [rewritten?, Option.ite_none_left_eq_some] at h
    obtain ⟨hb, rfl⟩ := And.imp_right Option.some.inj h
    refine ⟨fun hm => hl.feed_notMem ?_, fun _ hr => ?_, fun hn => hb ?_⟩
    · have hcode := (trimEnd_isPrefix line.survey.code).subset hm
      rw [hs] at hcode
      exact (trimEnd_isPrefix line.line.body).subset (mem_of_mem_code hcode)
    · exact absurd (isBlank_of_mem_getLast?_trimEnd hr) (by decide)
    · exact trimEnd_eq_nil_iff.mp (List.append_eq_nil_iff.mp hn).1

/-- The line that is found, when the swept text is surveyed, in the place of a line under a verdict.
A kept line has its old survey, and what is left of a removed line is code. -/
def resurveyed? (line : SurveyedLine) : Verdict → Option SurveyedLine
  | .kept => some line
  | .removed => (line.rewritten? .removed).map fun new => ⟨new, ⟨false, .code, new.body⟩⟩

end SurveyedLine

/-- The lines of a file with the verdicts on them when entries are swept out of it. -/
def judgedLines (content : Text) (entries : List Text) : List (SurveyedLine × Verdict) :=
  (surveyedLines content).zip (verdicts entries .kept (surveyedLines content))

@[simp] theorem map_fst_judgedLines (content : Text) (entries : List Text) :
    (judgedLines content entries).map Prod.fst = surveyedLines content :=
  List.map_fst_zip (by rw [length_verdicts])

/-- The swept text is what is written for each line under its verdict. -/
theorem content_sweepText (content : Text) (entries : List Text) :
    (sweepText content entries).content =
      (judgedLines content entries).flatMap fun judged => judged.1.written judged.2 := by
  simp only [sweepText, judgedLines, List.flatMap_def, ← List.map_uncurry_zip_eq_zipWith]
  rfl

/-- A text of which every line is kept stays as it is. -/
theorem content_sweepText_of_notMem {content : Text} {entries : List Text}
    (h : Verdict.removed ∉ verdicts entries .kept (surveyedLines content)) :
    (sweepText content entries).content = content := by
  rw [content_sweepText]
  conv_rhs => rw [← flatMap_raw_surveyedLines content, ← map_fst_judgedLines content entries,
    List.flatMap_map]
  refine List.flatMap_congr fun judged hj => ?_
  cases hv : judged.2 with
  | kept => rfl
  | removed => exact absurd (hv ▸ (List.of_mem_zip hj).2) h

/-- The swept text has the lines that stand in the place of the old ones. -/
theorem lines_sweepText (content : Text) (entries : List Text) :
    lines (sweepText content entries).content =
      (judgedLines content entries).filterMap fun judged => judged.1.rewritten? judged.2 := by
  have hended : (judgedLines content entries).Pairwise fun earlier _ =>
      earlier.1.line.ending ≠ .none := by
    have hp := (areLines_lines content).ended
    rwa [← map_line_surveyedFrom .code (lines content), ← surveyedLines_eq,
      ← map_fst_judgedLines content entries, List.map_map, List.pairwise_map] at hp
  have hnew : AreLines ((judgedLines content entries).filterMap
      fun judged => judged.1.rewritten? judged.2) := by
    constructor
    · intro new hn
      obtain ⟨judged, hj, hr⟩ := List.mem_filterMap.mp hn
      obtain ⟨hc, region, hs⟩ := cut_of_mem_surveyedLines (List.of_mem_zip hj).1
      exact SurveyedLine.cut_of_rewritten? hc hs hr
    · refine List.pairwise_filterMap.mpr (hended.imp ?_)
      intro earlier _ he new hn _ _
      rwa [SurveyedLine.ending_of_rewritten? hn]
  rw [← hnew.lines_flatMap_raw, content_sweepText, List.filterMap_eq_flatMap_toList,
    List.flatMap_assoc]
  simp only [SurveyedLine.flatMap_raw_rewritten?]

/-- Wherever a kept and a removed line are neighbours, the earlier one ends in code. -/
def SeamsInCode (judged : List (SurveyedLine × Verdict)) : Prop :=
  judged.IsChain fun earlier later => earlier.2 ≠ later.2 → earlier.1.survey.after = .code

instance (judged : List (SurveyedLine × Verdict)) : Decidable (SeamsInCode judged) :=
  inferInstanceAs (Decidable (judged.IsChain _))

/-- The region of a swept text at the place of a line that begins in the given region. -/
def Verdict.regionThere : Verdict → Region → Region
  | .kept, start => start
  | .removed, _ => .code

theorem Verdict.regionThere_code (verdict : Verdict) : verdict.regionThere .code = .code := by
  cases verdict <;> rfl

theorem openerFree_trimEnd_code (start : Region) (line : Text) :
    OpenerFree (trimEnd (survey start line).code) :=
  (openerFree_code start line).mono (trimEnd_isPrefix _).isInfix

theorem survey_trimEnd_code (start : Region) (line : Text) :
    survey .code (trimEnd (survey start line).code) =
      ⟨false, .code, trimEnd (survey start line).code⟩ :=
  survey_of_openerFree (openerFree_trimEnd_code start line)

/-- One line of the swept text, with the lines behind it in the old region or in code. -/
theorem surveyedFrom_rewritten?_append (start : Region) (line : Line) (verdict : Verdict)
    (more : List Line) :
    let old : SurveyedLine := ⟨line, survey start (trimEnd line.body)⟩
    surveyedFrom (verdict.regionThere start) ((old.rewritten? verdict).toList ++ more) =
      (old.resurveyed? verdict).toList ++
        surveyedFrom (verdict.regionThere old.survey.after) more := by
  intro old
  cases verdict with
  | kept => rfl
  | removed =>
    by_cases hb : allBlank old.survey.code = true
    · have hr : old.rewritten? .removed = none := if_pos hb
      simp only [SurveyedLine.resurveyed?, hr, Option.map_none, Option.toList_none,
        List.nil_append, Verdict.regionThere]
    · have hr : old.rewritten? .removed = some ⟨trimEnd old.survey.code, line.ending⟩ := if_neg hb
      simp only [SurveyedLine.resurveyed?, hr, Option.map_some, Option.toList_some,
        List.singleton_append, Verdict.regionThere, surveyedFrom_cons, trimEnd_trimEnd]
      rw [survey_trimEnd_code]

theorem surveyedFrom_rewritten (start there : Region) (ls : List Line) (vs : List Verdict)
    (ht : ∀ one ∈ ((surveyedFrom start ls).zip vs).head?, there = one.2.regionThere start)
    (hc : SeamsInCode ((surveyedFrom start ls).zip vs)) :
    surveyedFrom there
        (((surveyedFrom start ls).zip vs).filterMap fun one => one.1.rewritten? one.2) =
      ((surveyedFrom start ls).zip vs).filterMap fun one => one.1.resurveyed? one.2 := by
  simp only [List.filterMap_eq_flatMap_toList]
  induction ls generalizing start there vs with
  | nil => rfl
  | cons line rest ih =>
    cases vs with
    | nil => rfl
    | cons verdict vs =>
      obtain rfl : there = verdict.regionThere start := ht _ rfl
      rw [surveyedFrom_cons, List.zip_cons_cons] at hc ⊢
      obtain ⟨hseam, hrest⟩ := List.isChain_cons.mp hc
      rw [List.flatMap_cons, List.flatMap_cons, surveyedFrom_rewritten?_append]
      refine congrArg _ (ih _ _ vs ?_ hrest)
      intro next hn
      -- Within a run of equal verdicts both regions go on as before; at a seam both are code.
      by_cases he : verdict = next.2
      · rw [he]
      · rw [hseam next hn he, Verdict.regionThere_code, Verdict.regionThere_code]

/-- A swept text is surveyed like the old one, but what is left of removed lines as code. -/
theorem surveyedLines_sweepText {content : Text} {entries : List Text}
    (h : SeamsInCode (judgedLines content entries)) :
    surveyedLines (sweepText content entries).content =
      (judgedLines content entries).filterMap fun judged => judged.1.resurveyed? judged.2 := by
  rw [surveyedLines_eq, lines_sweepText]
  refine surveyedFrom_rewritten .code .code (lines content) _ ?_ h
  intro one _
  exact one.2.regionThere_code.symm

/-- No opener stands in the text, and a survey from code on leaves it as it is. -/
def AllCode (text : Text) : Prop := OpenerFree text ∧ survey .code text = ⟨false, .code, text⟩

theorem OpenerFree.allCode {text : Text} (h : OpenerFree text) : AllCode text :=
  ⟨h, survey_of_openerFree h⟩

/-- Whatever stands in the place of a removed line is all code. -/
theorem allCode_of_rewritten? {line : SurveyedLine} {region : Region} {new : Line}
    (hs : line.survey = survey region line.text) (h : line.rewritten? .removed = some new) :
    AllCode new.body := by
  rw [SurveyedLine.rewritten?, Option.ite_none_left_eq_some] at h
  rw [← Option.some.inj h.2, hs]
  exact (openerFree_trimEnd_code region line.text).allCode

/-- What a survey leaves of a line is all code, trimmed or not, and so is every line of a swept text
that stands in the place of a removed one. -/
theorem allCode_remnants :
    (∀ (start : Region) (line : Text),
      AllCode (survey start line).code ∧ AllCode (trimEnd (survey start line).code)) ∧
    ∀ (content : Text) (entries : List Text) (line : SurveyedLine),
      (line, Verdict.removed) ∈ judgedLines content entries →
        ∀ new ∈ line.rewritten? .removed,
          new ∈ lines (sweepText content entries).content ∧ AllCode new.body := by
  constructor
  · intro start line
    exact ⟨(openerFree_code start line).allCode, (openerFree_trimEnd_code start line).allCode⟩
  · intro content entries line hl new hn
    obtain ⟨-, region, hs⟩ := exists_survey_of_mem (List.of_mem_zip hl).1
    constructor
    · rw [lines_sweepText]
      exact List.mem_filterMap.mpr ⟨(line, .removed), hl, hn⟩
    · exact allCode_of_rewritten? hs hn

/-- Pieces are joined without a gap: a closer may arise at a seam, but no opener. -/
theorem allCode_remnants_joined :
    let content : Text := "x = y / /* 1 */* z; w */* 2 *// v // 3\r\n".toList
    let entries : List Text := [trimEnd content]
    let line : SurveyedLine := ⟨⟨trimEnd content, .crlf⟩, survey .code (trimEnd content)⟩
    let new : Line := ⟨"x = y / * z; w */ v".toList, .crlf⟩
    (line, Verdict.removed) ∈ judgedLines content entries ∧ new ∈ line.rewritten? .removed ∧
      new ∈ lines (sweepText content entries).content ∧ AllCode new.body := by
  intro content entries line new
  have hl : (line, Verdict.removed) ∈ judgedLines content entries := by decide +kernel
  have hn : new ∈ line.rewritten? .removed := by decide +kernel
  exact ⟨hl, hn, allCode_remnants.2 content entries line hl new hn⟩

end CommentSweep
