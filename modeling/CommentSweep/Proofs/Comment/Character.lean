import CommentSweep.Proofs.Comment.Remnant
import CommentSweep.Proofs.Text.Trimming

/-!
# Surveys character by character

A survey can be told from the head of the line: a marker there is passed as a whole and any other
character alone, and the rest is surveyed in the region behind it.
-/

namespace CommentSweep

section Leaps

theorem stretches_ne_nil (start : Region) (line : Text) : stretches start line ≠ [] := by
  fun_cases stretches start line <;> exact List.cons_ne_nil _ _

/-- A survey goes on behind the first stretch in the region that it leads to. -/
theorem survey_of_stretches_cons {start next : Region} {line rest : Text} {first : Stretch}
    (h : stretches start line = first :: stretches next rest) : survey start line =
      { commented := start == .block || (first.opensComment ||
          (stretches next rest).any Stretch.opensComment)
        after := (survey next rest).after
        code := first.codeText ++ (survey next rest).code } := by
  have hlast := List.getLast?_eq_some_getLast (stretches_ne_nil next rest)
  simp only [survey, h, List.any_cons, List.flatMap_cons, List.getLast?_cons, hlast,
    Option.getD_some, Option.map_some]

variable {line code comment rest : Text}

theorem stretches_of_opening?_line (h : opening? line = some (.line code rest)) :
    stretches .code line = [.lineComment code rest] := by
  rw [stretches]
  split
  · next hn => cases hn.symm.trans h
  · next hl =>
    cases hl.symm.trans h
    rfl
  · next hb => cases hb.symm.trans h

theorem stretches_of_opening?_block (h : opening? line = some (.block code rest)) :
    stretches .code line = .opened code :: stretches .block rest := by
  rw [stretches]
  split
  · next hn => cases hn.symm.trans h
  · next hl => cases hl.symm.trans h
  · next hb =>
    cases hb.symm.trans h
    rfl

theorem stretches_of_cut?_eq_none (h : cut? blockCloser line = none) :
    stretches .block line = [.unclosed line] := by
  rw [stretches]
  split
  · rfl
  · next hc => cases hc.symm.trans h

theorem stretches_of_cut?_eq_some (h : cut? blockCloser line = some (comment, rest)) :
    stretches .block line = .closed comment :: stretches .code rest := by
  conv_lhs => rw [stretches]
  split
  · next hn => cases hn.symm.trans h
  · next hc =>
    cases hc.symm.trans h
    rfl

theorem survey_of_opening?_line (h : opening? line = some (.line code rest)) :
    survey .code line = ⟨true, .code, code⟩ := by
  simp [survey, stretches_of_opening?_line h, Stretch.opensComment, Stretch.after,
    Stretch.codeText]

theorem survey_of_opening?_block (h : opening? line = some (.block code rest)) :
    survey .code line =
      ⟨true, (survey .block rest).after, code ++ (survey .block rest).code⟩ := by
  rw [survey_of_stretches_cons (stretches_of_opening?_block h)]
  rfl

theorem survey_of_cut?_eq_none (h : cut? blockCloser line = none) :
    survey .block line = ⟨true, .block, []⟩ := by
  simp [survey, stretches_of_cut?_eq_none h, Stretch.after, Stretch.codeText]

theorem survey_of_cut?_eq_some (h : cut? blockCloser line = some (comment, rest)) :
    survey .block line = { survey .code rest with commented := true } := by
  rw [survey_of_stretches_cons (stretches_of_cut?_eq_some h)]
  rfl

end Leaps

section Characters

@[simp] theorem survey_code_nil : survey .code [] = ⟨false, .code, []⟩ :=
  survey_of_openerFree openerFree_nil

@[simp] theorem survey_block_nil : survey .block [] = ⟨true, .block, []⟩ :=
  survey_of_cut?_eq_none rfl

@[simp] theorem survey_lineOpener (rest : Text) :
    survey .code ('/' :: '/' :: rest) = ⟨true, .code, []⟩ := by
  have hl : cut? lineOpener ('/' :: '/' :: rest) = some ([], rest) := by
    rw [cut?_cons]
    rfl
  exact survey_of_opening?_line (opening?_eq_line_iff.mpr ⟨hl, fun _ _ => Nat.zero_le _⟩)

@[simp] theorem survey_blockOpener (rest : Text) :
    survey .code ('/' :: '*' :: rest) =
      ⟨true, (survey .block rest).after, (survey .block rest).code⟩ := by
  have hb : cut? blockOpener ('/' :: '*' :: rest) = some ([], rest) := by
    rw [cut?_cons]
    rfl
  refine survey_of_opening?_block (opening?_eq_block_iff.mpr ⟨hb, fun found hf => ?_⟩)
  rw [cut?_cons] at hf
  obtain ⟨later, -, rfl⟩ := Option.map_eq_some_iff.mp hf
  exact Nat.succ_pos _

@[simp] theorem survey_blockCloser (rest : Text) :
    survey .block ('*' :: '/' :: rest) = { survey .code rest with commented := true } := by
  have hc : cut? blockCloser ('*' :: '/' :: rest) = some ([], rest) := by
    rw [cut?_cons]
    rfl
  exact survey_of_cut?_eq_some hc

/-- A marker that does not stand at the head of a text is searched for behind it. -/
theorem cut?_cons_of_not_prefix {marker : Text} {c : Char} {rest : Text}
    (h : ¬ marker <+: c :: rest) :
    cut? marker (c :: rest) = (cut? marker rest).map fun found => (c :: found.1, found.2) := by
  rw [cut?_cons, isPrefixOf?_eq_none_iff.mpr h]

/-- Inside a comment a character that no closer begins with is passed over. -/
theorem survey_block_cons {c : Char} {rest : Text} (h : ¬ blockCloser <+: c :: rest) :
    survey .block (c :: rest) = survey .block rest := by
  have hc := cut?_cons_of_not_prefix h
  cases hr : cut? blockCloser rest with
  | none =>
    rw [hr] at hc
    rw [survey_of_cut?_eq_none hc, survey_of_cut?_eq_none hr]
  | some found =>
    rw [hr] at hc
    rw [survey_of_cut?_eq_some hc, survey_of_cut?_eq_some hr]

/-- Outside comments a character that no opener begins with is code. -/
theorem survey_code_cons {c : Char} {rest : Text} (hl : ¬ lineOpener <+: c :: rest)
    (hb : ¬ blockOpener <+: c :: rest) : survey .code (c :: rest) =
      { survey .code rest with code := c :: (survey .code rest).code } := by
  have hcl := cut?_cons_of_not_prefix hl
  have hcb := cut?_cons_of_not_prefix hb
  cases ho : opening? rest with
  | none =>
    have hfree := opening?_eq_none_iff.mp ho
    have hcons : OpenerFree (c :: rest) := by
      constructor
      · exact fun hx => (List.infix_cons_iff.mp hx).elim hl hfree.1
      · exact fun hx => (List.infix_cons_iff.mp hx).elim hb hfree.2
    rw [survey_of_openerFree hcons, survey_of_openerFree hfree]
  | some found =>
    cases found with
    | line code comment =>
      obtain ⟨hfound, hnear⟩ := opening?_eq_line_iff.mp ho
      have hnext : opening? (c :: rest) = some (.line (c :: code) comment) := by
        refine opening?_eq_line_iff.mpr ⟨by rw [hcl, hfound]; rfl, fun block hblock => ?_⟩
        rw [hcb] at hblock
        obtain ⟨later, hlater, rfl⟩ := Option.map_eq_some_iff.mp hblock
        exact Nat.succ_le_succ (hnear later hlater)
      rw [survey_of_opening?_line hnext, survey_of_opening?_line ho]
    | block code inside =>
      obtain ⟨hfound, hnear⟩ := opening?_eq_block_iff.mp ho
      have hnext : opening? (c :: rest) = some (.block (c :: code) inside) := by
        refine opening?_eq_block_iff.mpr ⟨by rw [hcb, hfound]; rfl, fun line hline => ?_⟩
        rw [hcl] at hline
        obtain ⟨later, hlater, rfl⟩ := Option.map_eq_some_iff.mp hline
        exact Nat.succ_lt_succ (hnear later hlater)
      rw [survey_of_opening?_block hnext, survey_of_opening?_block ho]
      rfl

/-- It is enough to go on from the marker or the character at the head of a text. -/
@[elab_as_elim]
theorem Region.text_induction {motive : Region → Text → Prop}
    (nil : ∀ region, motive region [])
    (line : ∀ rest, motive .code ('/' :: '/' :: rest))
    (opened : ∀ rest, motive .block rest → motive .code ('/' :: '*' :: rest))
    (closed : ∀ rest, motive .code rest → motive .block ('*' :: '/' :: rest))
    (code : ∀ c rest, ¬ lineOpener <+: c :: rest → ¬ blockOpener <+: c :: rest →
      motive .code rest → motive .code (c :: rest))
    (comment : ∀ c rest, ¬ blockCloser <+: c :: rest →
      motive .block rest → motive .block (c :: rest))
    (region : Region) (text : Text) : motive region text := by
  -- A marker takes two characters, so the induction is on the length and not on the text.
  induction hn : text.length using Nat.strong_induction_on generalizing region text with
  | _ n ih =>
    subst hn
    cases text with
    | nil => exact nil region
    | cons c rest =>
      have hrest (next : Region) : motive next rest := ih _ (Nat.lt_succ_self _) next rest rfl
      have hlt (x y : Char) (after : Text) : after.length < ([x, y] ++ after).length := by
        rw [List.length_append]
        exact Nat.lt_add_of_pos_left Nat.two_pos
      cases region with
      | code =>
        by_cases hl : lineOpener <+: c :: rest
        · obtain ⟨after, ha⟩ := hl
          rw [← ha]
          exact line after
        · by_cases hb : blockOpener <+: c :: rest
          · obtain ⟨after, ha⟩ := hb
            rw [← ha] at ih ⊢
            exact opened after (ih _ (hlt '/' '*' after) .block after rfl)
          · exact code c rest hl hb (hrest .code)
      | block =>
        by_cases hc : blockCloser <+: c :: rest
        · obtain ⟨after, ha⟩ := hc
          rw [← ha] at ih ⊢
          exact closed after (ih _ (hlt '*' '/' after) .code after rfl)
        · exact comment c rest hc (hrest .block)

end Characters

section Blanks

/-- A marker at the head of a text with blanks behind it stands in the text. -/
theorem isPrefix_of_isPrefix_append_blank {marker text tail : Text}
    (hm : marker.any isBlank = false) (ht : ∀ c ∈ tail, isBlank c = true)
    (h : marker <+: text ++ tail) : marker <+: text := by
  rcases List.prefix_or_prefix_of_prefix h (List.prefix_append text tail) with hx | ⟨more, rfl⟩
  · exact hx
  · have hmore : more <+: tail := (List.prefix_append_right_inj text).mp h
    cases more with
    | nil => rw [List.append_nil]
    | cons c more =>
      have hc := List.any_eq_false.mp hm c (List.mem_append_right _ List.mem_cons_self)
      exact absurd (ht c (hmore.subset List.mem_cons_self)) hc

theorem not_infix_of_blank {marker text : Text} {c : Char} (hc : c ∈ marker)
    (hm : isBlank c = false) (h : ∀ c ∈ text, isBlank c = true) : ¬ marker <:+: text :=
  fun hx => absurd (h c (hx.subset hc)) (Bool.eq_false_iff.mp hm)

/-- Blanks at the end of a line leave only blanks, and those at the end of its code. -/
theorem exists_survey_append_of_blank (region : Region) (text : Text) {tail : Text}
    (h : ∀ c ∈ tail, isBlank c = true) :
    ∃ blanks : Text, (∀ c ∈ blanks, isBlank c = true) ∧ survey region (text ++ tail) =
      { survey region text with code := (survey region text).code ++ blanks } := by
  induction region, text using Region.text_induction with
  | nil region =>
    rw [List.nil_append]
    cases region with
    | code =>
      have hfree : OpenerFree tail :=
        ⟨not_infix_of_blank List.mem_cons_self (by decide) h,
          not_infix_of_blank List.mem_cons_self (by decide) h⟩
      exact ⟨tail, h, by rw [survey_of_openerFree hfree, survey_code_nil, List.nil_append]⟩
    | block =>
      have hnone : ¬ blockCloser <:+: tail :=
        not_infix_of_blank List.mem_cons_self (by decide) h
      refine ⟨[], nofun, ?_⟩
      rw [survey_of_cut?_eq_none ((cut?_eq_none_iff (by decide)).mpr hnone), survey_block_nil,
        List.append_nil]
  | line rest =>
    refine ⟨[], nofun, ?_⟩
    simp only [List.cons_append, survey_lineOpener, List.append_nil]
  | opened rest ih =>
    obtain ⟨blanks, hblanks, hrest⟩ := ih
    refine ⟨blanks, hblanks, ?_⟩
    simp only [List.cons_append, survey_blockOpener, hrest]
  | closed rest ih =>
    obtain ⟨blanks, hblanks, hrest⟩ := ih
    refine ⟨blanks, hblanks, ?_⟩
    simp only [List.cons_append, survey_blockCloser, hrest]
  | code c rest hl hb ih =>
    have hl' : ¬ lineOpener <+: c :: (rest ++ tail) :=
      fun hx => hl (isPrefix_of_isPrefix_append_blank (by decide) h hx)
    have hb' : ¬ blockOpener <+: c :: (rest ++ tail) :=
      fun hx => hb (isPrefix_of_isPrefix_append_blank (by decide) h hx)
    obtain ⟨blanks, hblanks, hrest⟩ := ih
    refine ⟨blanks, hblanks, ?_⟩
    simp only [List.cons_append, survey_code_cons hl' hb', survey_code_cons hl hb, hrest]
  | comment c rest hc ih =>
    have hc' : ¬ blockCloser <+: c :: (rest ++ tail) :=
      fun hx => hc (isPrefix_of_isPrefix_append_blank (by decide) h hx)
    obtain ⟨blanks, hblanks, hrest⟩ := ih
    refine ⟨blanks, hblanks, ?_⟩
    rw [List.cons_append, survey_block_cons hc', survey_block_cons hc, hrest]

/-- Blanks at the end of a line show in nothing but the code that is left of it. -/
theorem survey_append_of_blank (region : Region) (text : Text) {tail : Text}
    (h : ∀ c ∈ tail, isBlank c = true) :
    (survey region (text ++ tail)).commented = (survey region text).commented ∧
      (survey region (text ++ tail)).after = (survey region text).after := by
  obtain ⟨blanks, -, hsurvey⟩ := exists_survey_append_of_blank region text h
  rw [hsurvey]
  exact ⟨rfl, rfl⟩

end Blanks

end CommentSweep
