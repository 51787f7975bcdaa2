import CommentSweep.Comment.Survey
import CommentSweep.Proofs.Comment.Opener

/-!
# What a survey leaves of a line

The code that is left of a line is free of openers, although it is joined from pieces on either side
of comments, so surveying it again finds no comment.
-/

namespace CommentSweep

/-- A line free of openers that begins in code is one stretch of code. -/
theorem stretches_of_openerFree {line : Text} (h : OpenerFree line) :
    stretches .code line = [.plain line] := by
  have hn := opening?_eq_none_iff.mpr h
  rw [stretches]
  split
  · rfl
  · next he => cases hn.symm.trans he
  · next he => cases hn.symm.trans he

theorem survey_of_openerFree {line : Text} (h : OpenerFree line) :
    survey .code line = ⟨false, .code, line⟩ := by
  simp [survey, stretches_of_openerFree h, Stretch.opensComment, Stretch.after, Stretch.codeText]

/-- A line carries no comment exactly if it begins in code and no comment begins in it. -/
theorem commented_eq_false_iff {start : Region} {line : Text} :
    (survey start line).commented = false ↔ start = .code ∧ OpenerFree line := by
  constructor
  · intro h
    cases start with
    | block => simp [survey] at h
    | code =>
      refine ⟨rfl, opening?_eq_none_iff.mp ?_⟩
      simp only [survey, Bool.or_eq_false_iff] at h
      replace h := h.2
      rw [stretches] at h
      split at h
      · assumption
      · simp [Stretch.opensComment] at h
      · simp [Stretch.opensComment] at h
  · rintro ⟨rfl, h⟩
    rw [survey_of_openerFree h]

/-- A line without comment is code as a whole. -/
theorem survey_of_commented_eq_false {start : Region} {line : Text}
    (h : (survey start line).commented = false) : survey start line = ⟨false, .code, line⟩ := by
  obtain ⟨rfl, ho⟩ := commented_eq_false_iff.mp h
  exact survey_of_openerFree ho

/-- No comment begins in the code that is left of a line. -/
theorem openerFree_code (start : Region) (line : Text) : OpenerFree (survey start line).code := by
  change OpenerFree ((stretches start line).flatMap Stretch.codeText)
  fun_induction stretches start line with
  | case1 line h =>
    simpa [Stretch.codeText] using opening?_eq_none_iff.mp h
  | case2 line code comment h =>
    simpa [Stretch.codeText] using openerFree_of_opening?_line h
  | case3 line code rest h hlt ih =>
    rw [List.flatMap_cons]
    exact (openerFree_of_opening?_block h).append ih
  | case4 line h => simpa [Stretch.codeText] using openerFree_nil
  | case5 line comment rest h hle ih =>
    rw [List.flatMap_cons]
    exact ih

theorem Stretch.codeText_sublist (stretch : Stretch) :
    List.Sublist stretch.codeText stretch.text := by
  cases stretch with
  | plain code => exact List.Sublist.refl code
  | lineComment code comment =>
    exact (List.sublist_append_left _ _).trans (List.sublist_append_left _ _)
  | opened code => exact List.sublist_append_left _ _
  | closed comment => exact List.nil_sublist _
  | unclosed comment => exact List.nil_sublist _

/-- The code of a line is left when its markers and comments are taken out. -/
theorem code_sublist (start : Region) (line : Text) :
    List.Sublist (survey start line).code line := by
  conv_rhs => rw [← flatMap_text_stretches start line]
  change List.Sublist ((stretches start line).flatMap Stretch.codeText) _
  induction stretches start line with
  | nil => exact List.Sublist.refl _
  | cons stretch rest ih =>
    rw [List.flatMap_cons, List.flatMap_cons]
    exact stretch.codeText_sublist.append ih

theorem mem_of_mem_code {start : Region} {line : Text} {c : Char}
    (h : c ∈ (survey start line).code) : c ∈ line := (code_sublist start line).subset h

end CommentSweep
