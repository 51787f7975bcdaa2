import CommentSweep.Sweep.Content
import Mathlib.Data.List.Basic

/-!
# How lines are judged

A line is removed exactly if the next entry takes it, and the next entry is found by counting the
lines removed before.
-/

namespace CommentSweep

/-- An entry takes a line that has its text and carries a comment; a blank line needs no comment, but
the line before it must have been removed. -/
theorem takes_iff {entry : Text} {previous : Verdict} {line : SurveyedLine} :
    takes entry previous line = true ↔ line.text = trimEnd entry ∧
      (line.survey.commented = true ∨ line.text = []) ∧
        (line.text = [] → previous = .removed) := by
  simp only [takes, Bool.and_eq_true, Bool.or_eq_true, List.isEmpty_iff, beq_iff_eq,
    Bool.not_eq_true', List.isEmpty_eq_false_iff]
  tauto

theorem verdicts_cons_of_takes {entry : Text} {previous : Verdict} {line : SurveyedLine}
    (h : takes entry previous line = true) (entries : List Text) (rest : List SurveyedLine) :
    verdicts (entry :: entries) previous (line :: rest) =
      .removed :: verdicts entries .removed rest := by
  rw [verdicts, if_pos h]

theorem verdicts_cons_of_not_takes {entries : List Text} {previous : Verdict}
    {line : SurveyedLine} (h : ∀ entry ∈ entries.head?, takes entry previous line = false)
    (rest : List SurveyedLine) :
    verdicts entries previous (line :: rest) = .kept :: verdicts entries .kept rest := by
  cases entries with
  | nil => rfl
  | cons entry entries => rw [verdicts, h entry rfl, if_neg Bool.false_ne_true]

theorem verdicts_cons_cons_of_not_takes {entry : Text} {previous : Verdict} {line : SurveyedLine}
    (h : ¬ takes entry previous line = true) (entries : List Text) (rest : List SurveyedLine) :
    verdicts (entry :: entries) previous (line :: rest) =
      .kept :: verdicts (entry :: entries) .kept rest := by
  rw [verdicts, if_neg h]

/-- All that can become of a line: the next entry takes it and is used up, or the line is kept. -/
theorem verdicts_cons_cases (entries : List Text) (previous : Verdict) (line : SurveyedLine)
    (rest : List SurveyedLine) :
    (∃ entry more, entries = entry :: more ∧ takes entry previous line = true ∧
        verdicts entries previous (line :: rest) = .removed :: verdicts more .removed rest) ∨
      (∀ entry ∈ entries.head?, takes entry previous line = false) ∧
        verdicts entries previous (line :: rest) = .kept :: verdicts entries .kept rest := by
  by_cases ht : ∀ entry ∈ entries.head?, takes entry previous line = false
  · exact Or.inr ⟨ht, verdicts_cons_of_not_takes ht rest⟩
  · push Not at ht
    obtain ⟨entry, he, htake⟩ := ht
    obtain ⟨more, rfl⟩ := List.head?_eq_some_iff.mp he
    rw [Bool.ne_false_iff] at htake
    exact Or.inl ⟨entry, more, rfl, htake, verdicts_cons_of_takes htake more rest⟩

@[simp] theorem length_verdicts (entries : List Text) (previous : Verdict)
    (ls : List SurveyedLine) : (verdicts entries previous ls).length = ls.length := by
  fun_induction verdicts entries previous ls <;> simp_all

/-- Lines that entries take alike are judged alike. -/
theorem verdicts_map (change : SurveyedLine → SurveyedLine)
    (h : ∀ entry previous line, takes entry previous (change line) = takes entry previous line)
    (entries : List Text) (previous : Verdict) (ls : List SurveyedLine) :
    verdicts entries previous (ls.map change) = verdicts entries previous ls := by
  fun_induction verdicts entries previous ls with
  | case1 => rw [List.map_nil, verdicts]
  | case2 _ line rest ih => rw [List.map_cons, verdicts, ih]
  | case3 entry entries previous line rest ht ih =>
    exact (verdicts_cons_of_takes ((h entry previous line).trans ht) entries _).trans
      (congrArg _ ih)
  | case4 entry entries previous line rest ht ih =>
    rw [← h entry previous line] at ht
    exact (verdicts_cons_cons_of_not_takes ht entries _).trans (congrArg _ ih)

/-- Without a comment no line is removed behind a kept one. -/
theorem verdicts_of_no_comment {ls : List SurveyedLine}
    (h : ∀ line ∈ ls, line.survey.commented = false) (entries : List Text) :
    verdicts entries .kept ls = ls.map fun _ => .kept := by
  induction ls with
  | nil => cases entries <;> rfl
  | cons line rest ih =>
    have hn : ∀ entry ∈ entries.head?, takes entry .kept line = false := by
      intro entry _
      rw [Bool.eq_false_iff, ne_eq, takes_iff, h line List.mem_cons_self]
      rintro ⟨-, hc | hb, hp⟩
      · exact absurd hc Bool.false_ne_true
      · exact absurd (hp hb) nofun
    rw [verdicts_cons_of_not_takes hn, ih fun l hl => h l (List.mem_cons_of_mem _ hl)]
    rfl

/-- A line is removed exactly if the entry behind those used up takes it. -/
theorem getElem?_verdicts_eq_removed_iff (entries : List Text) (previous : Verdict)
    (ls : List SurveyedLine) (i : Nat) :
    (verdicts entries previous ls)[i]? = some .removed ↔
      ∃ line entry before, ls[i]? = some line ∧
        entries[((verdicts entries previous ls).take i).count .removed]? = some entry ∧
          (previous :: verdicts entries previous ls)[i]? = some before ∧
            takes entry before line = true := by
  induction ls generalizing entries previous i with
  | nil => cases entries <;> simp [verdicts]
  | cons line rest ih =>
    obtain ⟨entry, more, rfl, htake, hv⟩ | ⟨hwaits, hv⟩ :=
      verdicts_cons_cases entries previous line rest
    · rw [hv]
      cases i with
      | zero => exact iff_of_true rfl ⟨line, entry, previous, rfl, rfl, rfl, htake⟩
      | succ i =>
        rw [List.take_succ_cons, List.count_cons_self]
        exact ih more .removed i
    · rw [hv]
      cases i with
      | zero =>
        refine iff_of_false nofun ?_
        rintro ⟨_, entry, _, hl, he, hb, htake⟩
        obtain rfl := Option.some.inj hl
        obtain rfl := Option.some.inj hb
        rw [List.take_zero, List.count_nil, ← List.head?_eq_getElem?] at he
        exact Bool.false_ne_true ((hwaits entry he).symm.trans htake)
      | succ i =>
        have hcount (vs : List Verdict) : (Verdict.kept :: vs).count .removed = vs.count .removed :=
          List.count_cons_of_ne (by decide)
        rw [List.take_succ_cons, hcount]
        exact ih entries .kept i

end CommentSweep
